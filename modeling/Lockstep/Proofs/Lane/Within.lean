import Lockstep.Proofs.Exec.Inherits
import Lockstep.Proofs.Lane.Step

set_option autoImplicit false

/-! # What instructions do to the shared state

An instruction reaches the state that the lanes share only through memory, requests to the host and
snapshots of resources. A relation that these keep relates the states before and after every instruction,
whether it succeeds or not (`Step.Within.inherits`). -/

namespace Lockstep

/-- A relation between states that writes to memory and requests, but those for the content of resources,
    keep. -/
structure World.Allows (host : Host) (R : World → World → Prop) : Prop where
  refl : ∀ w, R w w
  trans : ∀ {w w' w''}, R w w' → R w' w'' → R w w''
  memory : ∀ w memory, R w { w with memory }
  ask : ∀ w {r}, r.content? = none → R w (w.ask host r).2

namespace Step

/-- From whatever machine it starts, a computation leaves a shared state that is related to the one before. -/
def Within (R : World → World → Prop) {α : Type} (x : Step α) : Prop := ∀ m, R m.world (x.on m).2.world

variable {R : World → World → Prop} {s : Setting} {i : Instr}

namespace Within

variable (h : World.Allows s.host R)
include h

theorem bind {α β : Type} {x : Step α} {f : α → Step β} (hx : Within R x) (hf : ∀ a, Within R (f a)) :
    Within R (x >>= f) := by
  intro m
  have hm := hx m
  rw [on_bind]
  cases hon : x.on m with
  | mk result m₁ =>
      rw [hon] at hm
      cases result with
      | error fault => exact hm
      | ok a => exact h.trans hm (hf a m₁)

theorem noteUse (name : String) (ref : ResourceRef) : Within R (noteUse s name ref) := by
  intro m
  obtain ⟨_, _, hnote⟩ := exists_on_noteUse s name ref m
  rw [hnote]
  exact h.refl _

theorem threads : Threads (Within R) s where
  bind := bind h
  pure _ m := h.refl _
  throw _ m := h.refl _
  lift x m := by
    rw [on_lift]
    exact h.refl _
  lane m := h.refl _
  raise _ m := h.refl _
  ask hr m := h.ask _ hr
  noteUse := noteUse h
  refer _ _ m := h.refl _
  describe _ _ m := h.refl _

theorem writeThrough (q : Pointer) (bytes : Bytes) : Within R (writeThrough q bytes) := by
  have ht := threads h
  unfold Step.writeThrough
  refine ht.bind ht.lane fun l => ht.ite ?_ ?_
  · exact ht.bind ht.lane fun l => ht.bind (ht.lift _) fun memory m => h.refl _
  · exact ht.bind (fun m => h.refl _) fun shared => ht.bind (ht.lift _) fun memory m => h.memory _ _

theorem overwrite (id : Id) (v : Variable) : Within R (overwrite id v) := by
  have ht := threads h
  unfold Step.overwrite
  refine ht.bind ht.lane fun l => ?_
  split
  · exact ht.bind (fun m => h.refl _) fun _ m => h.refl _
  · exact ht.pure _

theorem memory : Within R (memory i) :=
  (threads h).memory (fun _ => h.refl _) (fun _ _ => h.refl _) (writeThrough h) (overwrite h)

theorem inherits
    (helement : ∀ {op}, i.intrinsic? = some op → op.accesses → ∀ hd, Within R (element s i op hd)) :
    Inherits (Within R) s i where
  toThreads := threads h
  element := helement
  memory := memory h

theorem conclude (a : FunctionAnalysis) (o : Outcome) : Within R (conclude a i o) := fun m => by
  rw [world_on_conclude]
  exact h.refl _

end Within

end Step

end Lockstep
