import Lockstep.Proofs.Exec.Maintains
import Lockstep.Proofs.Exec.Sim
import Lockstep.Proofs.Ids
import Lockstep.Proofs.Lane.Holdings

set_option autoImplicit false

/-! # Invariants of values and memories

Values and memories change in the instructions on memory and where a result is assigned, and nowhere else. So an
invariant of these that instructions on memory and assignments keep is one of steps, whether they succeed or not
(`Machine.OfContents.execute`). -/

namespace Lockstep

/-- An invariant depends on the values of the lane, on how many there can be, and on memories alone. -/
def Machine.OfContents (I : Machine → Prop) : Prop :=
  ∀ {m m' : Machine}, I m → m'.lane.cells.size = m.lane.cells.size →
    m'.lane.holdings m'.world = m.lane.holdings m.world → I m'

namespace Machine.OfContents

open Step

variable {I : Machine → Prop} {s : Setting} {i : Instr} {a : FunctionAnalysis}

theorem modifyLane (hI : OfContents I) {f : Lane → Lane} (hsize : ∀ l, (f l).cells.size = l.cells.size)
    (hheld : ∀ l w, (f l).holdings w = l.holdings w) : Maintains I (fun _ => True) (Step.modifyLane f) :=
  fun m hm => ⟨hI hm (hsize m.lane) (hheld m.lane m.world), fun _ _ => trivial⟩

/-- What is done with the shared state beside its memory. -/
theorem onWorld (hI : OfContents I) {α : Type} {g : World → α × World} (hg : ∀ w, (g w).2.memory = w.memory) :
    Maintains I (fun _ => True) (Step.onWorld g) :=
  fun m hm => ⟨hI hm rfl (congrArg (Holdings.mk m.lane.value? m.lane.memory) (hg m.world)), fun _ _ => trivial⟩

/-! ## Instructions -/

theorem threads (hI : OfContents I) : Threads (Maintains I fun _ => True) s where
  bind hx hf := .bind hx fun a _ => hf a
  pure _ := .pure trivial
  throw := .throw
  lift _ := .lift fun _ _ => trivial
  lane := fun _ hm => ⟨hm, fun _ _ => trivial⟩
  raise _ := fun _ hm => ⟨hI hm rfl rfl, fun _ _ => trivial⟩
  ask _ := fun _ hm => ⟨hI hm rfl rfl, fun _ _ => trivial⟩
  noteUse name ref := by
    intro m hm
    obtain ⟨_, _, h⟩ := exists_on_noteUse s name ref m
    rw [h]
    exact ⟨hI hm rfl rfl, fun _ _ => trivial⟩
  refer _ _ := hI.modifyLane (fun _ => rfl) fun _ _ => rfl
  describe _ _ := hI.modifyLane (fun _ => rfl) fun _ _ => rfl

/-- The contents of resources are no memory. -/
theorem instruction (hI : OfContents I) (hmemory : Maintains I (fun _ => True) (memory i)) :
    Maintains I (fun _ => True) (Step.instruction s i) :=
  Inherits.instruction (P := Maintains I fun _ => True)
    { hI.threads with
      element := fun _ _ h => hI.threads.element (fun _ => hI.onWorld fun _ => World.memory_srv ..)
        (fun _ => hI.onWorld fun _ => World.memory_uav ..) (fun _ _ _ hm => ⟨hI hm rfl rfl, fun _ _ => trivial⟩) h
      memory := hmemory }

/-! ## Outcomes -/

theorem retire (hI : OfContents I) (keep : Option Id) : Maintains I (fun _ => True) (Step.retire a keep) :=
  .ofOn (on_retire a keep) fun m hm =>
    hI hm (by simp [Lane.retire]) (congrArg (Holdings.mk · m.lane.memory m.world.memory) (Lane.value_retire ..))

theorem jumpTo (hI : OfContents I) {b : Nat} {m : Machine} {l : Lane} (hm : I m)
    (hl : m.lane.jumpTo a b = .ok l) : I { m with lane := l } := by
  obtain ⟨hvalue, hmemory⟩ := Lane.value_jumpTo hl
  refine hI hm ?_ ?_
  · obtain ⟨_, -, rfl⟩ := Lane.jumpTo_ok hl
    rfl
  · show Holdings.mk l.value? l.memory _ = ⟨m.lane.value?, m.lane.memory, _⟩
    rw [hvalue, hmemory]

/-- An outcome keeps what assigning its value keeps. -/
theorem conclude (hI : OfContents I) {o : Outcome}
    (hassign : ∀ x v report, o = .effect (.assign x v report) →
      ∀ m, I m → I { m with lane := m.lane.assign x (i.assigned v) }) :
    Maintains I (fun _ => True) (Step.conclude a i o) := by
  cases o with
  | jump b =>
      intro m hm
      have hon : (Step.conclude a i (.jump b)).on m = (liftM (m.lane.jumpTo a b) >>= fun l => do
          Step.modifyLane fun _ => l
          Step.retire a none : Step Unit).on m := rfl
      rw [hon]
      cases hl : m.lane.jumpTo a b with
      | error fault => exact ⟨hm, fun _ h => nomatch h⟩
      | ok l => exact hI.retire (a := a) none { m with lane := l } (hI.jumpTo hm hl)
  | leave => exact hI.modifyLane (fun _ => rfl) fun _ _ => rfl
  | effect e =>
      cases e with
      | proceed => exact hI.retire _
      | kill => exact hI.modifyLane (fun _ => rfl) fun _ _ => rfl
      | assign x v report =>
          have hannounce : Maintains I (fun _ => True) (announce x (i.assigned v)) :=
            .ofOn (on_announce x (i.assigned v)) fun _ hm => hI hm rfl rfl
          have hstore : Maintains I (fun _ => True)
              (Step.modifyLane fun l => (l.assign x (i.assigned v)).bringIntoScope x) := by
            refine fun m hm => ⟨?_, fun _ _ => trivial⟩
            have hheld : ((m.lane.assign x (i.assigned v)).bringIntoScope x).holdings m.world =
                (m.lane.assign x (i.assigned v)).holdings m.world :=
              congrArg (Holdings.mk · _ m.world.memory) (Lane.value_bringIntoScope ..)
            exact hI (hassign x v report rfl m hm) Array.size_modify hheld
          refine .bind (hI.retire _) fun _ _ => ?_
          refine .bind (Q := fun _ => True) (fun _ hm => ⟨hm, fun _ _ => trivial⟩) fun l _ => ?_
          refine .ite (fun _ => .bind (.throw _) (Q := fun _ => False) fun _ h => h.elim) fun _ => ?_
          exact .ite (fun _ => .bind hannounce fun _ _ => hstore) fun _ => hstore

/-! ## Steps -/

/-- A step keeps an invariant that its instruction keeps, and that assigning what the instruction gives keeps. -/
theorem execute (hI : OfContents I) {Q : Instr → Outcome → Prop}
    (hinstruction : ∀ i, s.program.HasInstr i → Maintains I (Q i) (Step.instruction s i))
    (hassign : ∀ i x v report, s.program.HasInstr i → Q i (.effect (.assign x v report)) →
      ∀ m, I m → I { m with lane := m.lane.assign x (i.assigned v) }) :
    Maintains I (fun _ => True) (Step.execute s) := by
  unfold Step.execute
  refine .bind (Q := fun _ => True) (fun _ hm => ⟨hm, fun _ _ => trivial⟩) fun l _ => ?_
  have hnext : Maintains I (fun r => s.program.HasInstr r.2) (liftM (l.nextInstr s.program s.analyses)) :=
    .lift fun _ hr => Program.hasInstr_of_nextInstr hr
  refine .bind hnext fun ⟨a, i⟩ hi => .bind (hI.modifyLane (fun _ => rfl) fun _ _ => rfl) fun _ _ => ?_
  refine .bind (hinstruction i hi) fun o ho => hI.conclude fun x v report heq => ?_
  exact hassign i x v report hi (heq ▸ ho)

end Machine.OfContents

end Lockstep
