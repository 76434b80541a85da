import Lockstep.Proofs.Exec.Derivative
import Lockstep.Proofs.Exec.Mirror
import Lockstep.Proofs.Lane.Turn

set_option autoImplicit false

/-! # Barriers, and steps that end a lane

A barrier of the threads of a group fails exactly when those lanes that are not finished are at
different places at that moment (`Lane.fails_at_barrier_iff`). Which steps end their lane can be told
from the lane before it steps: those at a return, at an unreachable instruction, or at a discard whose
condition holds (`Lane.isFinished_of_step`). -/

namespace Lockstep

namespace Lane

/-- The instruction ends a lane that executes it. -/
def Exits (l : Lane) (i : Instr) : Prop :=
  i.op = .ret ∨ i.op = .unreachable ∨
    (i.intrinsic? = some .discard ∧ ∃ cond, l.argWord32 i 0 = .ok cond ∧ cond ≠ 0)

/-- The instruction is a barrier of the threads of the group. -/
def Syncs (l : Lane) (i : Instr) : Prop :=
  i.intrinsic? = some .barrier ∧ ∃ mode, l.argWord32 i 0 = .ok mode ∧ mode &&& 1 ≠ 0

/-- The next instruction ends the lane. -/
def AtExit (l : Lane) (p : Program) (as : Analyses) : Prop :=
  ∃ next, l.nextInstr p as = .ok next ∧ l.Exits next.2

/-- The next instruction is a barrier of the threads of the group. -/
def AtBarrier (l : Lane) (p : Program) (as : Analyses) : Prop :=
  ∃ next, l.nextInstr p as = .ok next ∧ l.Syncs next.2

instance (l : Lane) (i : Instr) : Decidable (l.Exits i) := inferInstanceAs (Decidable (_ ∨ _))

instance (l : Lane) (i : Instr) : Decidable (l.Syncs i) := inferInstanceAs (Decidable (_ ∧ _))

instance (l : Lane) (p : Program) (as : Analyses) : Decidable (l.AtExit p as) :=
  inferInstanceAs (Decidable (∃ _, _ ∧ _))

instance (l : Lane) (p : Program) (as : Analyses) : Decidable (l.AtBarrier p as) :=
  inferInstanceAs (Decidable (∃ _, _ ∧ _))

end Lane

namespace Step

variable {s : Setting} {a : FunctionAnalysis} {i : Instr} {o : Outcome} {m m' : Machine}

/-! ## What stops a lane -/

/-- A computation is like itself. -/
theorem Sim.self {α : Type} (x : Step α) : Sim (fun m n => n = m) Eq x x := by
  constructor
  intro m n b m' hR hok
  exact ⟨b, m', hR ▸ hok, rfl, rfl⟩

/-- Of the instructions that do not end their block, only a discard stops the lane, and one that has a
    value assigns it to its result. -/
theorem mirror_self (s : Setting) (i : Instr) :
    Mirror (fun m n => n = m)
      (fun e e' => e' = e ∧ (e = .kill → i.intrinsic? = some .discard) ∧
        (¬ i.writesMemory → i.produces → ∀ id, i.result = some id → ∃ v report, e = .assign id v report))
      (fun _ => True) s s i where
  program := rfl
  bindings := rfl
  agrees h := h ▸ .refl ..
  memory h := h ▸ rfl
  group _ _ _ _ h := h ▸ .refl ..
  pointer _ _ _ := trivial
  base h _ := h ▸ rfl
  ask r := .self _
  srv slot := .self _
  uav slot := .self _
  setUav _ _ _ _ := .self _
  raise e := .self _
  noteUse _ _ _ _ := .self _
  refer id ref := .self _
  describe id properties := .self _
  allocate _ _ _ := .self _
  addPointer _ _ _ _ := .self _
  write _ _ _ := .self _
  overwrite _ _ _ _ _ _ _ := .self _
  proceed hi := ⟨rfl, nofun, fun _ hproduces => absurd hproduces hi⟩
  gives _ e he := by
    refine ⟨rfl, ?_⟩
    cases he with
    | proceed hi => exact ⟨nofun, fun _ hproduces => absurd hproduces hi⟩
    | kill hop =>
        have hi := Instr.not_produces_of_intrinsic? hop rfl
        exact ⟨fun _ => hop, fun _ hproduces => absurd hproduces hi⟩
    | value id v hid _ =>
        refine ⟨nofun, fun _ _ id' hid' => ?_⟩
        cases hid.symm.trans hid'
        exact ⟨v, true, rfl⟩
  loaded _ _ id v hid _ _ := by
    refine ⟨rfl, nofun, fun _ _ id' hid' => ?_⟩
    cases hid.symm.trans hid'
    exact ⟨v, true, rfl⟩
  silent _ _ id v hid _ := by
    refine ⟨rfl, nofun, fun _ _ id' hid' => ?_⟩
    cases hid.symm.trans hid'
    exact ⟨v, false, rfl⟩
  stored hwrites _ _ _ _ _ _ := ⟨rfl, nofun, fun hi => absurd hwrites hi⟩
  output hop m n h e he := by
    have hi := Instr.not_produces_of_intrinsic? hop rfl
    refine ⟨e, h ▸ he, rfl, ?_, fun _ hproduces => absurd hproduces hi⟩
    rcases Lane.storeOutput_ok he with rfl | ⟨members, rfl⟩
    · exact nofun
    · exact nofun

theorem discard_of_kill (hi : ¬ i.isTerminator)
    (h : (instruction s i).on m = (.ok (.effect .kill), m')) : i.intrinsic? = some .discard := by
  obtain ⟨o', n', -, houtcomes, -⟩ := (mirror_self s i).instruction.ok rfl h
  cases houtcomes with
  | effect _ he => exact he.2.1 rfl
  | terminate ht _ => exact absurd ht hi

/-- An instruction that has a value, and writes no memory, assigns it to its result. -/
theorem assigns_of_produces {id : Id} (hwrites : ¬ i.writesMemory) (hi : i.produces)
    (hid : i.result = some id) (h : (instruction s i).on m = (.ok o, m')) :
    ∃ v report, o = .effect (.assign id v report) := by
  obtain ⟨o', n', -, houtcomes, -⟩ := (mirror_self s i).instruction.ok rfl h
  cases houtcomes with
  | effect _ he =>
      obtain ⟨v, report, rfl⟩ := he.2.2 hwrites hi id hid
      exact ⟨v, report, rfl⟩
  | terminate ht _ => exact absurd hi (Instr.not_produces_of_isTerminator ht)

theorem on_instruction_discard (h : i.intrinsic? = some .discard) (m : Machine) :
    (instruction s i).on m = ((m.lane.discard i).map Outcome.effect, m) :=
  on_instruction_of_intrinsic h rfl

/-- Of the instructions that end their block, those that lead to no other block end the lane. -/
theorem stops_iff_exits_of_terminate {l : Lane} (hi : i.isTerminator) (h : l.terminate i = .ok o) :
    o = .leave ∨ o = .effect .kill ↔ l.Exits i := by
  have hno : i.intrinsic? ≠ some .discard := fun hop => i.not_isTerminator_of_intrinsic? hop hi
  unfold Lane.terminate at h
  split at h
  · next hop =>
      cases h
      exact ⟨fun _ => .inl hop, fun _ => .inl rfl⟩
  · next hop =>
      cases h
      exact ⟨fun _ => .inr (.inl hop), fun _ => .inr rfl⟩
  · next hop =>
      obtain ⟨b, -, rfl⟩ := Lane.jump_of_branch hop h
      simp [Lane.Exits, hop, hno]
  · next hop =>
      obtain ⟨b, -, rfl⟩ := Lane.jump_of_switch hop h
      simp [Lane.Exits, hop, hno]
  · cases h

theorem discard_eq_kill_iff {l : Lane} :
    l.discard i = .ok .kill ↔ ∃ cond, l.argWord32 i 0 = .ok cond ∧ cond ≠ 0 := by
  unfold Lane.discard
  constructor
  · intro h
    obtain ⟨cond, hcond, hkill⟩ := ok_of_map h
    refine ⟨cond, hcond, fun hzero => ?_⟩
    rw [if_neg (not_not_intro hzero)] at hkill
    cases hkill
  · rintro ⟨cond, hcond, hne⟩
    rw [hcond, Except.map, if_pos hne]

/-- Of the other instructions, a discard does so when its condition holds. -/
theorem kills_iff_exits (hi : ¬ i.isTerminator) (h : (instruction s i).on m = (.ok o, m')) :
    o = .effect .kill ↔ m.lane.Exits i := by
  have hdiscard : i.intrinsic? = some .discard → (m.lane.discard i).map Outcome.effect = .ok o :=
    fun hop => congrArg Prod.fst ((on_instruction_discard hop m).symm.trans h)
  constructor
  · rintro rfl
    have hop := discard_of_kill hi h
    obtain ⟨e, he, heq⟩ := ok_of_map (hdiscard hop)
    rw [Outcome.effect.inj heq] at he
    exact .inr (.inr ⟨hop, discard_eq_kill_iff.1 he⟩)
  · rintro (hop | hop | ⟨hop, hcond⟩)
    · exact absurd (by rw [Instr.isTerminator, hop]; rfl) hi
    · exact absurd (by rw [Instr.isTerminator, hop]; rfl) hi
    · have hresult := hdiscard hop
      rw [discard_eq_kill_iff.2 hcond] at hresult
      exact (Except.ok.inj hresult).symm

/-- An instruction stops the lane exactly when it ends the lane that it finds. -/
theorem stops_iff_exits (h : (instruction s i).on m = (.ok o, m')) :
    o = .leave ∨ o = .effect .kill ↔ m.lane.Exits i := by
  by_cases hi : i.isTerminator
  · refine stops_iff_exits_of_terminate hi ?_
    unfold instruction at h
    rw [if_pos hi] at h
    exact congrArg Prod.fst h
  · rw [← kills_iff_exits hi h]
    refine or_iff_right ?_
    rintro rfl
    obtain ⟨-, ⟨ht, -⟩ | ⟨-, e, heq⟩⟩ := instruction_ok h
    · exact hi ht
    · cases heq

/-- Only an outcome that stops the lane makes a lane finished. -/
theorem isFinished_of_conclude {u : Unit} (hfin : ¬ m.lane.isFinished)
    (h : (conclude a i o).on m = (.ok u, m')) :
    m'.lane.isFinished ↔ o = .leave ∨ o = .effect .kill := by
  have hgoes : ∀ l : Lane, l.isKilled = m.lane.isKilled → l.isEnded = m.lane.isEnded →
      l.isEntered = m.lane.isEntered → ¬ l.isFinished := by
    intro l hkilled hended hentered
    unfold Lane.isFinished at hfin ⊢
    rwa [hkilled, hended, hentered]
  cases o with
  | leave =>
      cases h
      simp [Lane.isFinished]
  | jump b =>
      obtain ⟨l, m₁, hlane, h₁⟩ := ok_of_on_bind h
      cases hlane
      obtain ⟨l', m₂, hjump, h₂⟩ := ok_of_on_bind h₁
      obtain ⟨hl', rfl⟩ := Prod.mk.inj hjump
      obtain ⟨_, m₃, hmodify, h₃⟩ := ok_of_on_bind h₂
      cases hmodify
      cases (on_retire ..).symm.trans h₃
      obtain ⟨start, -, hplace⟩ := Lane.place_of_jumpTo hl'
      have hno := hgoes (l'.retire a none) (congrArg Place.isKilled hplace)
        (congrArg Place.isEnded hplace) (congrArg Place.isEntered hplace)
      simpa using hno
  | effect e =>
      cases e with
      | proceed =>
          cases (on_retire ..).symm.trans h
          have hno := hgoes (m.lane.retire a none) rfl rfl rfl
          simpa using hno
      | assign id v report =>
          obtain ⟨_, m₁, hretire, h₁⟩ := ok_of_on_bind h
          cases (on_retire ..).symm.trans hretire
          obtain ⟨-, events, rfl⟩ := assign_ok h₁
          have hplace := (m.lane.retire a (some id)).place_assign id (i.assigned v)
          have hno := hgoes (((m.lane.retire a (some id)).assign id (i.assigned v)).bringIntoScope id)
            (congrArg Place.isKilled hplace) (congrArg Place.isEnded hplace)
            (congrArg Place.isEntered hplace)
          simpa using hno
      | kill =>
          cases h
          simp [Lane.isFinished]

/-! ## Barriers -/

theorem on_instruction_barrier (h : i.intrinsic? = some .barrier) (m : Machine) :
    (instruction s i).on m = ((m.lane.barrier (s.groupWith m.lane) i).map Outcome.effect, m) :=
  on_instruction_of_intrinsic h rfl

end Step

namespace Lane

variable {l : Lane} {lanes : List Lane} {s : Setting} {w : World} {a : FunctionAnalysis} {i : Instr}

/-- Whether a step ends the lane is decided by the lane before the step. -/
theorem isFinished_of_step {state : StepState} (hfin : ¬ l.isFinished)
    (h : (l.step s w).result = .ok state) :
    (l.step s w).lane.isFinished ↔ l.AtExit s.program s.analyses := by
  obtain ⟨m, hm, hstep, -⟩ := execute_of_step hfin h
  obtain ⟨a, i, o, m₁, hnext, ho, hconclude⟩ := Step.execute_iff.1 hm
  have hnext : l.nextInstr s.program s.analyses = .ok (a, i) := hnext
  have hfin₁ : ¬ m₁.lane.isFinished := by
    rw [isFinished_of_place (place_of_frame (Step.instruction_ok ho).1)]
    exact hfin
  rw [hstep]
  refine ((Step.isFinished_of_conclude hfin₁ hconclude).trans (Step.stops_iff_exits ho)).trans ?_
  -- the lane is past its instruction when this is carried out, and reads the same operands there
  have hadvanced : l.advanced.Exits i ↔ l.Exits i := Iff.rfl
  refine hadvanced.trans ⟨fun hexits => ⟨(a, i), hnext, hexits⟩, ?_⟩
  rintro ⟨next, hnext', hexits⟩
  cases hnext.symm.trans hnext'
  exact hexits

/-- A barrier lets its lane go on, if it does not fail. -/
theorem eq_proceed_of_barrier {e : Effect} (h : l.barrier lanes i = .ok e) : e = .proceed := by
  obtain ⟨mode, -, h₁⟩ := ok_of_bind h
  exact (ok_inj (ok_of_guard h₁).2).symm

theorem barrier_error_iff : l.barrier lanes i = .error (.diverged .barrier) ↔
    (∃ mode, l.argWord32 i 0 = .ok mode ∧ mode &&& 1 ≠ 0) ∧ diverged lanes := by
  have hno : NoDivergence (l.argWord32 i 0) := by
    unfold argWord32 arg
    split
    · exact .map _ (.error (by simp [Fault.isDivergence]))
    · exact .map _ (noDivergence_operand _ _)
  unfold barrier
  cases hmode : l.argWord32 i 0 with
  | error fault =>
      constructor
      · intro h
        cases h
        exact absurd rfl (hno _ hmode)
      · rintro ⟨⟨_, h, -⟩, -⟩
        cases h
  | ok mode =>
      show (if mode &&& 1 ≠ 0 ∧ diverged lanes then _ else _ : Except Fault Effect) = _ ↔ _
      by_cases hc : mode &&& 1 ≠ 0 ∧ diverged lanes
      · rw [if_pos hc]
        exact ⟨fun _ => ⟨⟨mode, rfl, hc.1⟩, hc.2⟩, fun _ => rfl⟩
      · rw [if_neg hc]
        constructor
        · intro h
          cases h
        · rintro ⟨⟨_, heq, hsyncs⟩, hdiv⟩
          cases heq
          exact absurd ⟨hsyncs, hdiv⟩ hc

/-- A barrier fails for the places of the lanes exactly when it is one of threads and they are not all
    at one place. -/
theorem fails_at_barrier_iff (hfin : ¬ l.isFinished)
    (hnext : l.nextInstr s.program s.analyses = .ok (a, i)) (hop : i.intrinsic? = some .barrier) :
    (l.step s w).result = .error (.diverged .barrier) ↔
      l.Syncs i ∧ diverged (s.groupWith l.advanced) := by
  have hbarrier : l.advanced.barrier (s.groupWith l.advanced) i = .error (.diverged .barrier) ↔
      l.Syncs i ∧ diverged (s.groupWith l.advanced) := by
    rw [barrier_error_iff]
    exact ⟨fun h => ⟨⟨hop, h.1⟩, h.2⟩, fun h => ⟨h.1.2, h.2⟩⟩
  rw [← hbarrier]
  have hexecute := Step.on_execute (m := { lane := l, world := w }) hnext
  rw [Step.on_bind, Step.on_instruction_barrier hop] at hexecute
  unfold step
  rw [if_neg hfin, hexecute]
  show _ ↔ l.advanced.barrier (s.groupWith l.advanced) i = _
  cases hx : l.advanced.barrier (s.groupWith l.advanced) i with
  | error fault => simp [Except.map]
  | ok e =>
      obtain rfl := eq_proceed_of_barrier hx
      have hconclude : (Step.conclude a i (.effect .proceed)).on
          { lane := l.advanced, world := w } = _ := Step.on_retire a none _
      simp only [Except.map, hconclude, reduceCtorEq]

end Lane

end Lockstep
