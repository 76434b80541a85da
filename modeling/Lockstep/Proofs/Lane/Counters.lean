import Lockstep.Proofs.Flow.LastReads
import Lockstep.Proofs.Lane.Assigns

set_option autoImplicit false

/-! # Counters and blocks

Nothing in a program says where a block starts. The starts are located in one pass over the instructions,
the walk that finds last reads counts blocks in another, and a lane is told its block when it jumps. While
a lane is not finished, its counters and the three notions of its block agree (`Lane.Run.standing`,
`Place.Standing.inStep`). So they do after a step that fails, unless it fails at a terminator: the lane
has then left the instruction, and not the block (`Lane.inStep_of_step`). -/

namespace Lockstep

/-! ## The walk over the instructions -/

variable {p : Program} {f : Function} {a : FunctionAnalysis}

/-- A walk that succeeds has gone through the first instructions, and has counted their terminators. -/
theorem LiveRanges.walk_take {cf : ControlFlow} {starts : List Nat} {count i : Nat} {instrs : List Instr}
    {s s' : LiveRanges} (hcf : cf = .ofLinks f.blocks.size f.links) (hcount : i + instrs.length ≤ count)
    (h : walk p cf starts count i instrs s = .ok s') (k : Nat) :
    ∃ t, walk p cf starts count i (instrs.take k) s = .ok t ∧
      t.block = s.block + (instrs.take k).countP Instr.isTerminator := by
  induction instrs generalizing i s k with
  | nil => exact ⟨s, by rw [List.take_nil, walk], by simp⟩
  | cons instr rest ih =>
      cases k with
      | zero => exact ⟨s, by rw [List.take_zero, walk], by simp⟩
      | succ k =>
          rw [walk] at h
          rw [List.length_cons] at hcount
          obtain ⟨s₁, hnote, h⟩ := ok_of_bind h
          obtain ⟨-, -, hblock⟩ := note_spec hcf (by omega) hnote
          obtain ⟨t, ht, htblock⟩ := ih (by omega) h k
          refine ⟨t, ?_, ?_⟩
          · rw [List.take_succ_cons, walk, hnote]
            exact ht
          · rw [htblock, hblock, List.take_succ_cons, List.countP_cons]
            omega

/-- The walk comes to every instruction in the block that the instruction belongs to. -/
theorem FunctionAnalysis.Describes.walked (h : a.Describes p f) (k : Nat) :
    ∃ s, LiveRanges.walk p a.flow a.starts f.instrs.size 0 (f.instrs.toList.take k) (initialRanges p) = .ok s ∧
      s.block = f.blockOf k := by
  obtain ⟨s', hwalk, -⟩ := h.lastReads
  obtain ⟨s, hs, hblock⟩ := LiveRanges.walk_take h.flow (by simp) hwalk k
  exact ⟨s, hs, hblock.trans (Nat.zero_add _)⟩

/-! ## Places in blocks -/

/-- The counters of a place agree: its number over the whole program with its instruction, and its block with
    the starts of the blocks, there being no terminator since the start, and with the walk over the instructions.
    A function that has no instructions has no starts. -/
structure Place.InStep (p : Program) (f : Function) (a : FunctionAnalysis) (q : Place) : Prop where
  globalInstr : q.globalInstr = a.offset + q.instr
  start : (f.instrs = #[] ∧ q.block = 0 ∧ q.instr = 0) ∨
    ∃ start, a.start? q.block = some start ∧ start ≤ q.instr ∧
      ∀ k i, start ≤ k → k < q.instr → f.instrs[k]? = some i → ¬ i.isTerminator
  stop : q.instr ≤ (a.start? (q.block + 1)).getD f.instrs.size
  walk : ∃ s, LiveRanges.walk p a.flow a.starts f.instrs.size 0 (f.instrs.toList.take q.instr)
    (FunctionAnalysis.initialRanges p) = .ok s ∧ s.block = q.block

/-- A numbered place among the instructions or at their end, in a block that has a start. -/
structure Place.Standing (f : Function) (a : FunctionAnalysis) (function : Nat) (q : Place) : Prop where
  numbered : q.Numbered f a function
  start : f.instrs = #[] ∨ (a.start? q.block).isSome
  instr : q.instr ≤ f.instrs.size

namespace Place.Standing

variable {n : Nat} {q q' : Place} {i : Instr}

theorem entered (hstarts : f.blockStarts = .ok a.starts) (n : Nat) :
    Place.Standing f a n ⟨n, 0, 0, a.offset, 0, false, false, true⟩ := by
  refine ⟨⟨rfl, rfl, rfl⟩, ?_, Nat.zero_le _⟩
  by_cases hempty : f.instrs = #[]
  · exact .inl hempty
  · refine .inr ?_
    show a.starts[0]?.isSome
    rw [(Function.blockStarts_eq hstarts).2, if_neg (mt Array.isEmpty_iff.1 hempty)]
    rfl

theorem next (hstarts : f.blockStarts = .ok a.starts) (h : q.Standing f a n)
    (hi : f.instrs[q.instr]? = some i) (hnext : q.Next a i q') (hrun : ¬ (q'.isKilled ∨ q'.isEnded)) :
    q'.Standing f a n := by
  have hnumbered := h.numbered.next hstarts hi hnext hrun
  cases hnext with
  | within _ => exact ⟨hnumbered, h.start, (Array.getElem?_eq_some_iff.1 hi).1⟩
  | jump b start _ _ hstart =>
      exact ⟨hnumbered, .inr (Option.isSome_of_eq_some hstart),
        Nat.le_of_lt (Function.start_lt hstarts hstart)⟩
  | stop _ hstop => exact absurd hstop hrun

theorem skip (h : q.Standing f a n) {k : Nat} (hk : ∀ j < k, Lane.atNop f (q.instr + j)) :
    (q.skip k).Standing f a n := by
  refine ⟨h.numbered.skip hk, h.start, ?_⟩
  show q.instr + k ≤ f.instrs.size
  cases k with
  | zero => exact h.instr
  | succ k =>
      obtain ⟨i, hi, -⟩ := (Option.any_eq_true _ _).1 (hk k (Nat.lt_succ_self k))
      have := (Array.getElem?_eq_some_iff.1 hi).1
      omega

/-- Blocks that are counted by terminators are those that lie between starts. -/
theorem inStep (hd : a.Describes p f) (h : q.Standing f a n) : q.InStep p f a := by
  have hblock := h.numbered.block
  refine ⟨h.numbered.globalInstr, ?_, ?_, ?_⟩
  · rcases h.start with hempty | hsome
    · have hinstr : q.instr = 0 := by
        have := h.instr
        rwa [hempty, Array.size_empty, Nat.le_zero] at this
      exact .inl ⟨hempty, by rw [hblock, hinstr]; rfl, hinstr⟩
    · obtain ⟨start, hstart⟩ := Option.isSome_iff_exists.1 hsome
      obtain ⟨hfirst, hbefore⟩ := Function.blockOf_start hd.starts hstart
      refine .inr ⟨start, hstart, ?_, fun k i hk hlt hi ht => ?_⟩
      · by_contra hlt
        have := hbefore q.instr (by omega)
        omega
      · have := f.blockOf_mono hk
        have := Function.blockOf_lt_of_terminator hi ht hlt
        omega
  · cases hnext : a.start? (q.block + 1) with
    | none => exact h.instr
    | some stop =>
        obtain ⟨hfirst, -⟩ := Function.blockOf_start hd.starts hnext
        show q.instr ≤ stop
        by_contra hlt
        have := f.blockOf_mono (Nat.le_of_lt (Nat.lt_of_not_le hlt))
        omega
  · obtain ⟨s, hs, hwalked⟩ := hd.walked q.instr
    exact ⟨s, hs, hwalked.trans hblock.symm⟩

end Place.Standing

/-! ## Steps -/

/-- A lane in the function that a program enters whose counters agree. -/
def Lane.InStep (p : Program) (as : Analyses) (l : Lane) : Prop :=
  ∃ f a, p.Enters as f a ∧ l.place.InStep p f a

/-- A step that fails at a terminator. It leaves the lane behind the terminator, in the block that the
    terminator ends. -/
structure Move.Strands (p : Program) (as : Analyses) (t : Move) : Prop where
  program : t.setting.program = p
  analyses : t.setting.analyses = as
  runs : ¬ t.lane.isFinished
  inStep : t.lane.InStep p as
  terminator : ∃ i, t.Executes i ∧ i.isTerminator
  fails : ¬ t.Succeeds
  block : t.stepped.lane.block = t.lane.block
  instr : t.stepped.lane.instr = t.lane.instr + 1
  globalInstr : t.stepped.lane.globalInstr = t.lane.globalInstr + 1

namespace Step

variable {i : Instr} {m m' : Machine} {fault : Fault}

/-- To assign fails only for want of a place, before it has done anything. -/
theorem assign_error {id : Id} {v : Variable} {report : Bool}
    (h : (assign i id v report).on m = (.error fault, m')) : m' = m := by
  unfold assign at h
  rcases error_of_on_bind h with h | ⟨l, m₁, hlane, h⟩
  · cases h
  · cases hlane
    rcases error_of_guard h with ⟨-, hm⟩ | h
    · exact hm
    · cases report with
      | false => cases h
      | true =>
          rcases error_of_on_bind h with h | ⟨_, m₂, -, h⟩
          · cases (on_announce ..).symm.trans h
          · cases h

/-- An outcome that cannot be carried out leaves the lane where it is. -/
theorem place_of_conclude_error {o : Outcome} (h : (conclude a i o).on m = (.error fault, m')) :
    m'.lane.place = m.lane.place := by
  cases o with
  | leave => cases h
  | jump b =>
      rcases error_of_on_bind h with h | ⟨l, m₁, hlane, h⟩
      · cases h
      · cases hlane
        rcases error_of_on_bind h with h | ⟨l', m₂, hjump, h⟩
        · obtain ⟨-, rfl⟩ := Prod.mk.inj h
          rfl
        · rcases error_of_on_bind h with h | ⟨_, m₃, -, h⟩
          · cases h
          · cases (on_retire ..).symm.trans h
  | effect e =>
      cases e with
      | proceed => cases (on_retire ..).symm.trans h
      | kill => cases h
      | assign id v report =>
          rcases error_of_on_bind h with h | ⟨_, m₁, hretire, h⟩
          · cases (on_retire ..).symm.trans h
          · cases (on_retire ..).symm.trans hretire
            rw [assign_error h, Lane.place_retire]

/-- An instruction that fails leaves the lane where it is. -/
theorem place_of_instruction_error {s : Setting} (h : (instruction s i).on m = (.error fault, m')) :
    m'.lane.place = m.lane.place := by
  unfold instruction at h
  split at h
  · rcases error_of_on_bind h with h | ⟨l, m₁, hlane, h⟩
    · cases h
    · cases hlane
      rw [on_lift] at h
      obtain ⟨-, rfl⟩ := Prod.mk.inj h
      rfl
  · rcases error_of_on_bind h with h | ⟨e, m₁, -, h⟩
    · have hframe := (keeps_compute (s := s) (i := i)).keepsAt m
      rw [KeepsAt, h] at hframe
      exact Lane.place_of_frame hframe
    · cases h

end Step

namespace Lane

variable {b : Bindings} {as : Analyses} {liveGlobals : Array Bool} {l : Lane} {s : Setting} {w : World}

/-- A step that fails has not moved the lane, or has moved it past its instruction. -/
theorem place_of_step_error {fault : Fault} (hl : ¬ l.isFinished) (h : (l.step s w).result = .error fault) :
    (l.step s w).lane.place = l.place ∨
      ∃ a i, l.nextInstr s.program s.analyses = .ok (a, i) ∧ (l.step s w).lane.place = l.advanced.place := by
  unfold step at h ⊢
  rw [if_neg hl] at h ⊢
  split at h
  · next fault' m' hexecute =>
      cases hnext : l.nextInstr s.program s.analyses with
      | error fault'' =>
          refine .inl ?_
          unfold Step.execute at hexecute
          rw [Step.on_bind] at hexecute
          replace hexecute : (liftM (l.nextInstr s.program s.analyses) >>= _ : Step Unit).on
            { lane := l, world := w } = (.error fault', m') := hexecute
          rw [Step.on_bind, Step.on_lift, hnext] at hexecute
          cases hexecute
          rfl
      | ok found =>
          obtain ⟨a, i⟩ := found
          refine .inr ⟨a, i, rfl, ?_⟩
          rw [Step.on_execute hnext] at hexecute
          rcases Step.error_of_on_bind hexecute with hfails | ⟨o, m₁, ho, hfails⟩
          · exact Step.place_of_instruction_error hfails
          · exact (Step.place_of_conclude_error hfails).trans (place_of_frame (Step.instruction_ok ho).1)
  · cases h

/-- The state of a step that does not end the lane says where the lane goes on. -/
theorem next_of_step_state {state : StepState} (hl : ¬ l.isFinished) (h : (l.step s w).result = .ok state)
    (hended : ¬ (l.step s w).lane.isEnded) : state.next = (l.step s w).lane.globalInstr := by
  obtain ⟨m, -, hstep, rfl⟩ := execute_of_step hl h
  rw [hstep] at hended ⊢
  exact if_neg hended

/-- A lane that is not finished is among the instructions of the entry function, or at their end, in the
    block that its instruction belongs to. -/
theorem Run.standing (he : p.Enters as f a) (h : Run p b as liveGlobals l) (hl : ¬ l.isFinished) :
    l.place.Standing f a p.entry :=
  h.place_induction he (fun hq => hq.numbered.function) (.entered he.describes.starts _)
    (fun hq => hq.next he.describes.starts) (fun hq => hq.skip) hl

/-- After a step, whether it has succeeded or not, the counters of a lane agree unless the step has failed at a
    terminator. -/
theorem inStep_of_step (he : p.Enters as f a) (hl : l.place.Standing f a p.entry) (hfin : ¬ l.isFinished)
    (hp : s.program = p) (has : s.analyses = as) (hfin' : ¬ (l.step s w).lane.isFinished) :
    (l.step s w).lane.InStep p as ∨ Move.Strands p as ⟨l, s, w⟩ := by
  have hstanding : (l.step s w).lane.place.Standing f a p.entry → (l.step s w).lane.InStep p as :=
    fun h => ⟨f, a, he, h.inStep he.describes⟩
  cases hresult : (l.step s w).result with
  | ok state =>
      obtain ⟨i, -, hi, hnext⟩ := next_of_step he hl.numbered.function hfin hp has hresult
      exact .inl (hstanding (hl.next he.describes.starts hi hnext fun hstop => hfin' (isFinished_of_stop hstop)))
  | error fault =>
      rcases place_of_step_error hfin hresult with hplace | ⟨a', i, hnext, hplace⟩
      · exact .inl (hstanding (hplace ▸ hl))
      · obtain ⟨rfl, hi⟩ := instr_of_nextInstr he hl.numbered.function (hp ▸ has ▸ hnext)
        by_cases ht : i.isTerminator
        · refine .inr ⟨hp, has, hfin, ⟨f, a', he, hl.inStep he.describes⟩, ⟨i, ⟨a', hnext⟩, ht⟩, ?_,
            congrArg Place.block hplace, congrArg Place.instr hplace, congrArg Place.globalInstr hplace⟩
          rintro ⟨state, hok⟩
          cases hresult.symm.trans hok
        · refine .inl (hstanding (hplace ▸ hl.next he.describes.starts hi (.within ht) ?_))
          exact fun hstop => hfin (isFinished_of_stop hstop)

end Lane

end Lockstep
