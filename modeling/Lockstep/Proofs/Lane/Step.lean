import Lockstep.Lane.Step
import Lockstep.Proofs.Blocks
import Lockstep.Proofs.Exec.Keeps

set_option autoImplicit false

/-! # What a step of a lane does

A step that succeeds moves the lane past one instruction, lets the instruction work, which keeps the
frame, and carries out its outcome. These are the only ways in which a step changes where a lane is
and what it has in scope (`Lane.step_cases`). -/

namespace Lockstep

/-- What an instruction assigns in place of a value: it may flush subnormal components. -/
def Instr.assigned (i : Instr) (v : Variable) : Variable := if i.isFlushing then v.flushed else v

/-- How the outcome of an instruction changes the lane that the instruction leaves. -/
inductive Lane.Concludes (a : FunctionAnalysis) (i : Instr) (l : Lane) : Lane → Prop
  | proceed (hi : ¬ i.isTerminator) : Concludes a i l (l.retire a none)
  | assign (id : Id) (v : Variable) (hi : ¬ i.isTerminator) (hid : l.hasPlace id) :
      Concludes a i l (((l.retire a (some id)).assign id v).bringIntoScope id)
  | jump (b : Nat) (l' : Lane) (hi : i.isTerminator) (hb : b ∈ i.targets)
      (hl : l.jumpTo a b = .ok l') : Concludes a i l (l'.retire a none)
  | leave (hi : i.isTerminator) : Concludes a i l { l with isEnded := true }
  | kill : Concludes a i l { l with isKilled := true }

/-- A jump goes to the start of its block, and keeps what the phi nodes read that follow the block it leaves. -/
theorem Lane.jumpTo_ok {l l' : Lane} {a : FunctionAnalysis} {b : Nat} (h : l.jumpTo a b = .ok l') :
    ∃ start, a.start? b = some start ∧ l' = { l with
      previousBlock := l.block, phiValues := l.phiSnapshot a l.block, block := b, instr := start
      globalInstr := a.offset + start } := by
  unfold jumpTo at h
  split at h
  · cases h
  · next start hstart =>
      cases h
      exact ⟨start, hstart, rfl⟩

namespace Step

variable {a : FunctionAnalysis} {i : Instr} {m m' : Machine}

/-- What can come of an instruction: a terminator does not go on within the block, and no other
    instruction leaves it. -/
theorem instruction_ok {s : Setting} {o : Outcome} (h : (instruction s i).on m = (.ok o, m')) :
    m'.lane.frame = m.lane.frame ∧
      ((i.isTerminator ∧
          ((∃ b ∈ i.targets, o = .jump b) ∨ o = .leave ∨ o = .effect .kill)) ∨
        (¬ i.isTerminator ∧ ∃ e, o = .effect e)) := by
  unfold instruction at h
  split at h
  · next hi =>
      obtain ⟨l, m₁, hlane, h⟩ := ok_of_on_bind h
      rw [on_lift] at h
      cases hlane
      obtain ⟨ho, rfl⟩ := Prod.mk.inj h
      exact ⟨rfl, .inl ⟨hi, Lane.terminate_cases ho⟩⟩
  · next hi =>
      obtain ⟨e, m₁, he, h⟩ := ok_of_on_bind h
      have hframe := (keeps_compute (s := s) (i := i)).keepsAt m
      rw [KeepsAt, he] at hframe
      cases h
      exact ⟨hframe, .inr ⟨hi, e, rfl⟩⟩

theorem on_forM_note (ids : List Id) (change : Id → Change) (m : Machine) :
    (ids.forM fun id => note (change id)).on m =
      (.ok (), { m with changes := m.changes ++ (ids.map change).toArray }) := by
  induction ids generalizing m with
  | nil =>
      rw [List.map_nil, Array.append_empty]
      rfl
  | cons id rest ih =>
      have hchanges : m.changes.push (change id) ++ (rest.map change).toArray =
          m.changes ++ ((id :: rest).map change).toArray := by simp
      rw [← hchanges]
      exact ih { m with changes := m.changes.push (change id) }

/-- To drop identifiers always succeeds. -/
theorem on_retire (a : FunctionAnalysis) (keep : Option Id) (m : Machine) :
    (retire a keep).on m = (.ok (), { m with
      lane := m.lane.retire a keep
      changes := m.changes ++ ((m.lane.retiring a keep).map fun id =>
        Change.removed ((m.lane.value? id).getD .empty)).toArray }) := by
  unfold retire
  rw [on_bind]
  show Step.on (_ >>= _) m = _
  rw [on_bind, on_forM_note]
  rfl

/-- To report an assignment always succeeds. -/
theorem on_announce (id : Id) (v : Variable) (m : Machine) :
    (announce id v).on m = (.ok (), { m with
      events := if v.hasNonFinite then m.events.union .generatedNonFinite else m.events
      changes := m.changes.push (m.lane.assignment id v) }) := by
  unfold announce
  by_cases hv : v.hasNonFinite
  · rw [if_pos hv, if_pos hv]
    rfl
  · rw [if_neg hv, if_neg hv]
    rfl

theorem assign_ok {id : Id} {v : Variable} {report : Bool} {u : Unit}
    (h : (assign i id v report).on m = (.ok u, m')) :
    m.lane.hasPlace id ∧ ∃ events, m' = { m with
      events
      lane := (m.lane.assign id (i.assigned v)).bringIntoScope id
      changes := if report then m.changes.push (m.lane.assignment id (i.assigned v))
        else m.changes } := by
  unfold assign at h
  obtain ⟨l, m₁, hlane, h₁⟩ := ok_of_on_bind h
  cases hlane
  obtain ⟨hplace, h₂⟩ := ok_of_guard h₁
  refine ⟨by simpa using hplace, ?_⟩
  cases report with
  | false =>
      cases h₂
      exact ⟨m.events, rfl⟩
  | true =>
      obtain ⟨_, m₂, hannounce, h₃⟩ := ok_of_on_bind h₂
      cases (on_announce ..).symm.trans hannounce
      cases h₃
      exact ⟨_, rfl⟩

/-- An outcome that is carried out changes the lane as it says. -/
theorem concludes_of_conclude {o : Outcome} {u : Unit}
    (hfits : (i.isTerminator ∧ ((∃ b ∈ i.targets, o = .jump b) ∨ o = .leave ∨ o = .effect .kill)) ∨
      (¬ i.isTerminator ∧ ∃ e, o = .effect e))
    (h : (conclude a i o).on m = (.ok u, m')) : m.lane.Concludes a i m'.lane := by
  rcases hfits with ⟨hi, ⟨b, hb, rfl⟩ | rfl | rfl⟩ | ⟨hi, e, rfl⟩
  · obtain ⟨l, m₁, hlane, h₁⟩ := ok_of_on_bind h
    cases hlane
    obtain ⟨l', m₂, hjump, h₂⟩ := ok_of_on_bind h₁
    obtain ⟨hl', rfl⟩ := Prod.mk.inj hjump
    obtain ⟨_, m₃, hmodify, h₃⟩ := ok_of_on_bind h₂
    have hlane : m₃.lane = l' := by cases hmodify; rfl
    cases (on_retire ..).symm.trans h₃
    rw [hlane]
    exact .jump b l' hi hb hl'
  · cases h
    exact .leave hi
  · cases h
    exact .kill
  · cases e with
    | proceed =>
        cases (on_retire ..).symm.trans h
        exact .proceed hi
    | assign id v report =>
        obtain ⟨_, m₁, hretire, h₁⟩ := ok_of_on_bind h
        cases (on_retire ..).symm.trans hretire
        obtain ⟨hplace, events, rfl⟩ := assign_ok h₁
        refine .assign id _ hi ?_
        simpa [Lane.hasPlace, Lane.retire] using hplace
    | kill =>
        cases h
        exact .kill

/-- What an outcome asks to be done leaves what all lanes share as it is. -/
theorem world_on_conclude (a : FunctionAnalysis) (i : Instr) (o : Outcome) (m : Machine) :
    ((conclude a i o).on m).2.world = m.world := by
  cases o with
  | leave => rfl
  | jump b =>
      show ((liftM (m.lane.jumpTo a b) >>= _ : Step Unit).on m).2.world = _
      rw [on_bind, on_lift]
      cases m.lane.jumpTo a b with
      | error fault => rfl
      | ok l' =>
          show ((retire a none).on { m with lane := l' }).2.world = _
          rw [on_retire]
  | effect e =>
      cases e with
      | proceed =>
          show ((retire a none).on m).2.world = _
          rw [on_retire]
      | kill => rfl
      | assign id v report =>
          show ((retire a (some id) >>= fun _ => assign i id v report).on m).2.world = _
          rw [on_bind, on_retire]
          show ((assign i id v report).on _).2.world = _
          unfold assign
          rw [on_bind]
          show (Step.on (if _ then _ else _) _).2.world = _
          split
          · rfl
          · cases report with
            | false => rfl
            | true =>
                show ((announce id _ >>= _).on _).2.world = _
                rw [on_bind, on_announce]
                rfl

/-- To execute is to carry out the instruction that is found, once the lane is past it. -/
theorem on_execute {s : Setting} (h : m.lane.nextInstr s.program s.analyses = .ok (a, i)) :
    (execute s).on m = (instruction s i >>= conclude a i).on { m with lane := m.lane.advanced } := by
  show (liftM (m.lane.nextInstr s.program s.analyses) >>= _ : Step Unit).on m = _
  rw [on_bind, on_lift, h]
  rfl

/-- To execute is to find the instruction, to move past it, and to do what it asks. -/
theorem execute_iff {s : Setting} :
    (execute s).on m = (.ok (), m') ↔ ∃ a i o m₁,
      m.lane.nextInstr s.program s.analyses = .ok (a, i) ∧
        (instruction s i).on { m with lane := m.lane.advanced } = (.ok o, m₁) ∧
          (conclude a i o).on m₁ = (.ok (), m') := by
  unfold execute
  constructor
  · intro h
    obtain ⟨_, _, hlane, h₁⟩ := ok_of_on_bind h
    cases hlane
    obtain ⟨⟨a, i⟩, _, hlift, h₂⟩ := ok_of_on_bind h₁
    obtain ⟨hnext, rfl⟩ := Prod.mk.inj hlift
    obtain ⟨_, _, hadvance, h₃⟩ := ok_of_on_bind h₂
    cases hadvance
    obtain ⟨o, m₁, ho, h₄⟩ := ok_of_on_bind h₃
    exact ⟨a, i, o, m₁, hnext, ho, h₄⟩
  · rintro ⟨a, i, o, m₁, hnext, ho, hm'⟩
    show (liftM (m.lane.nextInstr s.program s.analyses) >>= _ : Step Unit).on m = _
    rw [on_bind, on_lift, hnext]
    show (instruction s i >>= conclude a i).on { m with lane := m.lane.advanced } = _
    rw [on_bind, ho]
    exact hm'

end Step

namespace Lane

/-- A step that succeeds leaves what execution leaves. -/
theorem execute_of_step {l : Lane} {s : Setting} {w : World} {state : StepState} (hl : ¬ l.isFinished)
    (h : (l.step s w).result = .ok state) :
    ∃ m, (Step.execute s).on { lane := l, world := w } = (.ok (), m) ∧
      l.step s w = { lane := m.lane, world := m.world, result := .ok state } ∧
        state = m.state l.globalInstr := by
  unfold step at h ⊢
  rw [if_neg hl] at h ⊢
  split at h
  · cases h
  · next m hm =>
      cases h
      exact ⟨m, hm, rfl, rfl⟩

theorem step_of_execute {l : Lane} {s : Setting} {w : World} {m : Machine} (hl : ¬ l.isFinished)
    (h : (Step.execute s).on { lane := l, world := w } = (.ok (), m)) :
    l.step s w = { lane := m.lane, world := m.world, result := .ok (m.state l.globalInstr) } := by
  unfold step
  rw [if_neg hl, h]

/-- The instruction of a step that succeeds has an outcome. -/
theorem instruction_of_step {l : Lane} {s : Setting} {w : World} {state : StepState}
    {a : FunctionAnalysis} {i : Instr} (hfin : ¬ l.isFinished)
    (hnext : l.nextInstr s.program s.analyses = .ok (a, i)) (hok : (l.step s w).result = .ok state) :
    ∃ o, ((Step.instruction s i).on { lane := l.advanced, world := w }).1 = .ok o := by
  obtain ⟨m, hm, -, -⟩ := execute_of_step hfin hok
  obtain ⟨a', i', o, m₁, hnext', ho, -⟩ := Step.execute_iff.1 hm
  cases hnext.symm.trans hnext'
  exact ⟨o, congrArg Prod.fst ho⟩

/-- A step of a lane that is not finished, if it succeeds, executes the instruction at the lane's
    place. -/
theorem step_cases {l : Lane} {s : Setting} {w : World} {state : StepState}
    (hl : ¬ l.isFinished) (h : (l.step s w).result = .ok state) :
    ∃ a i, ∃ l₁ : Lane, l.nextInstr s.program s.analyses = .ok (a, i) ∧ l₁.frame = l.advanced.frame ∧
      l₁.Concludes a i (l.step s w).lane := by
  obtain ⟨m, hm, hstep, -⟩ := execute_of_step hl h
  obtain ⟨a, i, o, m₁, hnext, ho, hm⟩ := Step.execute_iff.1 hm
  obtain ⟨hframe, hfits⟩ := Step.instruction_ok ho
  rw [hstep]
  exact ⟨a, i, m₁.lane, hnext, hframe, Step.concludes_of_conclude hfits hm⟩

end Lane

end Lockstep
