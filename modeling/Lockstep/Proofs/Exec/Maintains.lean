import Lockstep.Lane.Step
import Lockstep.Proofs.Except
import Lockstep.Proofs.Lane.Frame

set_option autoImplicit false

/-! # Invariants of computations

An invariant of machines that computations keep, also those that fail, is kept by what is put together from them
(`Step.Maintains.bind`). What is known of a machine's contents is carried on by what a computation gives. -/

namespace Lockstep

/-- A computation keeps an invariant, whether it succeeds or not, and what it gives has a property. -/
def Step.Maintains (I : Machine → Prop) {α : Type} (Q : α → Prop) (x : Step α) : Prop :=
  ∀ m, I m → I (x.on m).2 ∧ ∀ a, (x.on m).1 = .ok a → Q a

namespace Step.Maintains

variable {I : Machine → Prop} {α β : Type} {Q : α → Prop} {R : β → Prop} {x : Step α} {f : α → Step β}

theorem bind (hx : x.Maintains I Q) (hf : ∀ a, Q a → (f a).Maintains I R) : (x >>= f).Maintains I R := by
  intro m hm
  obtain ⟨hm', ha⟩ := hx m hm
  rw [on_bind]
  rcases hok : x.on m with ⟨fault | a, m'⟩
  · rw [hok] at hm'
    exact ⟨hm', fun _ h => nomatch h⟩
  · rw [hok] at hm' ha
    exact hf a (ha a rfl) m' hm'

theorem lift {x : Except Fault α} (hx : Yields Q x) : (liftM x : Step α).Maintains I Q :=
  fun _ hm => ⟨hm, hx⟩

theorem pure {a : α} (ha : Q a) : (Pure.pure a : Step α).Maintains I Q := lift (.ok ha)

theorem throw (fault : Fault) : (MonadExcept.throw fault : Step α).Maintains I Q := lift (.error fault)

theorem ite {c : Prop} [Decidable c] {y : Step α} (hx : c → x.Maintains I Q) (hy : ¬ c → y.Maintains I Q) :
    (if c then x else y).Maintains I Q := by
  split
  · next hc => exact hx hc
  · next hc => exact hy hc

/-- A computation that always changes the machine in one way. -/
theorem ofOn {x : Step Unit} {g : Machine → Machine} (hx : ∀ m, x.on m = (.ok (), g m)) (h : ∀ m, I m → I (g m)) :
    x.Maintains I fun _ => True := by
  intro m hm
  rw [hx]
  exact ⟨h m hm, fun _ _ => trivial⟩

/-- A step keeps what executing an instruction keeps. -/
theorem step {J : Lane → World → Prop} {s : Setting} {l : Lane} {w : World} {Q : Unit → Prop}
    (hx : (execute s).Maintains (fun m => J m.lane m.world) Q) (h : J l w) :
    J (l.step s w).lane (l.step s w).world := by
  unfold Lane.step
  split
  · exact h
  · have hm := (hx { lane := l, world := w } h).1
    dsimp only
    rcases hexecuted : (execute s).on { lane := l, world := w } with ⟨fault | u, m⟩
    all_goals
      rw [hexecuted] at hm
      exact hm

end Step.Maintains

end Lockstep
