import Lockstep.Host.Unbound
import Lockstep.Proofs.Session.Account
import Lockstep.Proofs.Session.Barrier
import Lockstep.Proofs.Session.Supplied

set_option autoImplicit false

/-! # Reads of unassigned identifiers

A call that fails since an identifier is unassigned has failed in the turn of a lane
(`Session.turn_of_resume`). In a program in static single assignment form that lane has what it reads
itself, and so has every lane that is where it is. So the instruction takes derivatives, and reads in a
lane of the quad that has finished before it has assigned the identifier: such a lane does not count when
the lanes are asked to be at one place (`Session.unassigned_read_is_of_finished_lane`). -/

namespace Lockstep

instance decidableUnassigned {α : Type} {x : Except Fault α} {id : Id} :
    Decidable (x = .error (.unassignedRead id)) :=
  match x with
  | .ok _ => isFalse fun h => nomatch h
  | .error fault => decidable_of_iff (fault.unassigned? = some id) (by
      cases fault <;> simp [Fault.unassigned?])

/-- The host with nothing bound gives other faults as its answers. -/
theorem Host.not_answers_unbound (id : Id) : ¬ Host.unbound.Answers (.unassignedRead id) := by
  rintro (⟨log, op, input, h⟩ | ⟨log, request, h⟩)
  · have h : op.evaluate input = .error (.unassignedRead id) := h
    unfold Intrinsic.evaluate at h
    split at h <;> cases h
  · cases h

namespace Session

variable {p : Program} {b : Bindings} {w : World} {inits : List LaneInit} {active : Nat} {config : Config}
  {given lent : Id → Prop} {f : Function} {a : FunctionAnalysis} {s₀ s : Session} {host : Host} {k : Nat}
  {x : Id} {fault : Fault}

/-! ## Calls that fail -/

theorem program_of_bindGlobals {gs : List GlobalVar} {l : Lane} (h : (l.bindGlobals gs).2 = some fault) :
    ∃ cause, fault = .program cause := by
  induction gs generalizing l with
  | nil => cases h
  | cons g gs ih =>
      rw [Lane.bindGlobals] at h
      split at h
      · exact ih h
      · cases h
        exact ⟨_, rfl⟩

/-- A lane fails to enter a program only for what is wrong with the program. -/
theorem program_of_enter {as : Analyses} {liveGlobals : Array Bool} {l : Lane}
    (h : (l.enter p b as liveGlobals).1 = .error fault) : ∃ cause, fault = .program cause := by
  unfold Lane.enter at h
  split at h
  · next hfault =>
      cases h
      exact program_of_bindGlobals (congrArg Prod.snd hfault)
  · split at h
    · next hfault =>
        cases h
        unfold Lane.enterFunction at hfault
        split at hfault <;> cases hfault
        exact ⟨_, rfl⟩
    · cases h

theorem program_of_enterLanes {index count : Nat} (h : (s.enterLanes index count).result = .error fault) :
    ∃ cause, fault = .program cause := by
  induction count generalizing s index with
  | zero => cases h
  | succ count ih =>
      rw [enterLanes] at h
      split at h
      · cases h
      · dsimp only at h
        split at h
        · next hfault =>
            cases h
            exact program_of_enter hfault
        · exact ih h

/-- So does a session fail to start. -/
theorem program_of_start (h : s.start.result = .error fault) : ∃ cause, fault = .program cause := by
  unfold start at h
  dsimp only at h
  split at h
  · next hfault =>
      cases h
      exact program_of_enterLanes hfault
  · cases h

/-- Rounds that fail for an unassigned identifier come to the turn of a lane that fails for it. -/
theorem Reached.turn_of_runUntil {stop rounds : Nat} {acc : Array StepState}
    {done : Progress (List StepState)} (h : Reached s₀ s) (hrun : runUntil host stop rounds s acc = some done)
    (hfault : done.result = .error (.unassignedRead x)) :
    ∃ t k, s₀.Reached t ∧ t.HasTurn host k ∧ (t.turn host k).result = .error (.unassignedRead x) := by
  induction rounds generalizing s acc with
  | zero => cases hrun
  | succ rounds ih =>
      rw [runUntil] at hrun
      split at hrun
      · cases hrun
        cases hfault
      · split at hrun
        · cases hrun
          cases hfault
        · dsimp only at hrun
          split at hrun
          · next hround =>
              cases hrun
              cases hfault
              rcases error_of_round hround with hturns | ⟨cause, hcause⟩
              · obtain ⟨k, hk, hturn⟩ := hasTurn_of_error hturns
                exact ⟨s, k, h, hk, hturn⟩
              · cases hcause
          · next hround => exact ih (h.round hround) hrun

/-- A call that fails for an unassigned identifier comes to the turn of a lane that fails for it. -/
theorem turn_of_resume {rounds : Nat} {done : Progress (List StepState)}
    (hs : if s.isStarted then Reached s₀ s else s = s₀) (hcall : s.resume host rounds = some done)
    (hfault : done.result = .error (.unassignedRead x)) :
    ∃ t k, s₀.Reached t ∧ t.HasTurn host k ∧ (t.turn host k).result = .error (.unassignedRead x) := by
  unfold resume at hcall
  split at hcall
  · cases hcall
    cases hfault
  · obtain ⟨done', hrun, rfl⟩ := Option.map_eq_some_iff.1 hcall
    have hfault' : done'.result = .error (.unassignedRead x) := by
      dsimp only at hfault
      split at hfault <;> exact hfault
    unfold run at hrun
    split at hrun
    · next hstarted =>
        rw [if_pos hstarted] at hs
        exact hs.turn_of_runUntil hrun hfault'
    · cases hrun
      obtain ⟨cause, hcause⟩ := program_of_start hfault'
      cases hcause

/-- Calls that have not terminated the session have led to a state between two rounds. -/
theorem Called.reached {results : List (Except Fault (List StepState))} (h : Called s₀ s results)
    (hnew : s₀.IsNew) (hterm : ¬ s.isTerminated) : if s.isStarted then Reached s₀ s else s = s₀ := by
  induction h with
  | fresh => rw [if_neg (by simp [hnew.isStarted])]
  | @call s results host rounds done hs hcall ih =>
      cases hresult : done.result with
      | error fault => exact absurd (isTerminated_of_error hcall hresult) hterm
      | ok states =>
          have hreached := Reached.of_resume (ih (session_of_resume hcall hresult).1) hcall hresult
          rwa [if_pos hreached.isStarted]

/-! ## The turn of a lane -/

/-- At the turn of lane `k` an instruction that takes derivatives of an operand fails, since a lane of the
    quad has finished without a value for the operand. -/
structure FindsFinished (s : Session) (host : Host) (k : Nat) (x : Id) : Prop where
  turn : s.HasTurn host k
  fault : (s.turn host k).result = .error (.unassignedRead x)
  quad : isPixelQuad s.program.stage s.lanes
  instr : ∃ l ∈ s.lanes[k]?, ∃ next, l.nextInstr s.program s.analyses = .ok next ∧
    .ref x ∈ next.2.args ∧ ∃ op ∈ next.2.intrinsic?, op.takesDerivatives
  lane : ∃ m ∈ (s.stepLanes host 0 (s.mask.take k)).session.lanes, m.isFinished ∧ m.value? x = none

namespace Supplied

/-- At the turn of a lane, a lane that is where it is and has not finished has what the instruction
    reads. -/
theorem isSome_at_turn (h : s.Supplied p given lent f a) (hsettled : s.Settled f a)
    (huse : f.DefinesBeforeUse given) (hk : s.HasTurn host k) {l : Lane} (hl : s.lanes[k]? = some l)
    (hfin : ¬ l.isFinished) {i : Instr} {op : Intrinsic} (hi : f.instrs[l.instr]? = some i)
    (hop : i.intrinsic? = some op) (hx : .ref x ∈ i.args) {m' : Lane}
    (hm' : m' ∈ (s.stepLanes host 0 (s.mask.take k)).session.lanes) (hmfin' : ¬ m'.isFinished)
    (hposition : m'.position = l.position) : (m'.value? x).isSome := by
  have hmem := List.mem_of_getElem? hl
  have hne : i.op ≠ .phi := Step.op_ne_phi hop
  -- a lane that is at the same place when the round begins is at the same instruction
  have hrested : ∀ {m}, m ∈ s.lanes → ¬ m.isFinished → m.position = l.position → (m.value? x).isSome := by
    intro m hm hmfin hposition
    have hinstr : m.instr = l.instr :=
      (Lane.position_eq_iff (hsettled.numbered m hm hmfin) (hsettled.numbered l hmem hfin)
        (hsettled.rest m hm hmfin) (hsettled.rest l hmem hfin)).1 hposition
    exact (h.lanes hm hmfin).isSome_of_operand huse (hinstr ▸ hi) hne hx
  obtain ⟨-, states, hok⟩ := hk
  obtain ⟨j, hj⟩ := List.getElem?_of_mem hm'
  obtain ⟨m, hm, hturn⟩ := (lanesBy_stepLanes hok).lane j m' hj
  have hm := List.mem_of_getElem? hm
  split at hturn
  · have hmfin : ¬ m.isFinished := by
      obtain ⟨setting, w, state, -, -, -, rfl⟩ := hturn
      intro hmfin
      rw [Lane.step_of_isFinished hmfin] at hmfin'
      exact hmfin' hmfin
    have hbefore := (hsettled.position_of_stepping hmem hfin hi (i.not_isTerminator_of_intrinsic? hop)
      hm hmfin hturn hmfin').1 hposition
    obtain ⟨setting, w, state, -, -, hstep, rfl⟩ := hturn
    exact Lane.isSome_value_of_step hmfin hstep (hrested hm hmfin hbefore)
  · subst hturn
    exact hrested hm hmfin' hposition

/-- A turn that fails for an unassigned identifier takes derivatives, and reads in a lane that has
    finished, unless the identifier was pointed at from the start. -/
theorem findsFinished (h : s.Supplied p given lent f a) (hsettled : s.Settled f a)
    (huse : f.DefinesBeforeUse given)
    (hphis : ∀ {i}, i ∈ f.instrs → i.op = .phi → ∀ {b id},
      Lane.phiOperand b i.args = .ok (some (.ref id)) → id ∈ a.phiReadsOf b)
    (hstage : ∀ l ∈ s.lanes, l.stage = s.program.stage) (hk : s.HasTurn host k)
    (hturn : (s.turn host k).result = .error (.unassignedRead x)) :
    host.Answers (.unassignedRead x) ∨ lent x ∨ s.FindsFinished host k x := by
  obtain ⟨l, hl, hfin⟩ := running_of_mask hk.1
  have hmem := List.mem_of_getElem? hl
  obtain ⟨-, states, hok⟩ := id hk
  have hlanes := lanesBy_stepLanes hok
  have hself := (getElem?_stepLanes_take hok).trans hl
  have hfault := (stepLane_error_iff hself).1 hturn
  obtain ⟨-, a', i, hnext, hmisses⟩ := Lane.step_misses hfault
  replace hnext : l.nextInstr s.program s.analyses = .ok (a', i) := by
    rw [← hlanes.program, ← hlanes.analyses]
    exact hnext
  have hi : f.instrs[l.instr]? = some i :=
    (Lane.instr_of_nextInstr hsettled.enters (hsettled.numbered l hmem hfin).function hnext).2
  have hgroup : ((s.stepLanes host 0 (s.mask.take k)).session.setting host k).groupWith l.advanced =
      (s.stepLanes host 0 (s.mask.take k)).session.lanes.set k l.advanced := by
    rw [← hsettled.index hl]
    rfl
  refine ((h.lanes hmem hfin).of_misses huse hphis (h.stepLanes hok).shared hi hmisses).imp_right
    (.imp_right ?_)
  rintro ⟨op, hop, hderives, harg, hquad, htogether, m, hm, hnone⟩
  rw [hgroup] at hquad htogether hm
  have hsome : ∀ {m}, m ∈ (s.stepLanes host 0 (s.mask.take k)).session.lanes → ¬ m.isFinished →
      m.position = l.position → (m.value? x).isSome :=
    h.isSome_at_turn hsettled huse hk hl hfin hi hop harg
  have hown : (l.value? x).isSome := hsome (List.mem_of_getElem? hself) hfin rfl
  -- the lane that lacks the operand is another one, and it would have it if it had not finished
  have hother : m ∈ (s.stepLanes host 0 (s.mask.take k)).session.lanes := by
    refine (List.mem_or_eq_of_mem_set hm).resolve_right ?_
    rintro rfl
    have hnone : l.value? x = none := hnone
    rw [hnone] at hown
    cases hown
  have hfinished : m.isFinished := by
    by_contra hmfin
    have hself' := List.mem_set (List.getElem?_eq_some_iff.1 hself).1 l.advanced
    have hposition : m.position = l.advanced.position :=
      position_eq_of_not_diverged htogether hm hself' hmfin hfin
    have hvalue := hsome hother hmfin hposition
    rw [hnone] at hvalue
    cases hvalue
  refine ⟨hk, hturn, ?_, ⟨l, hl, (a', i), hnext, harg, op, hop, hderives⟩, m, hother, hfinished, hnone⟩
  have hstage' : l.advanced.stage = s.program.stage := hstage l hmem
  unfold isPixelQuad at hquad ⊢
  rwa [List.length_set, hlanes.length, hstage'] at hquad

end Supplied

/-! ## Calls of a session -/

/-- In a program in static single assignment form, whatever calls have been made on a session and whatever
    their hosts were, a call fails for an unassigned identifier only if its host gives that as an answer, if
    there was a pointer to the identifier before the session was made, or if the call comes to an instruction
    that takes derivatives in a quad of which a lane has finished without a value for the operand. -/
theorem unassigned_read_is_of_finished_lane (hnew : Session.new p b w inits active config = .ok s₀)
    (hf : p.entryFunction? = some f) (hblocks : f.blocks.size ≤ Lane.noBlock)
    (htargets : f.TargetsAgree) (huse : f.DefinesBeforeUse p.IsGlobal)
    {results : List (Except Fault (List StepState))} (hs : Called s₀ s results) {rounds : Nat}
    {done : Progress (List StepState)} (hcall : s.resume host rounds = some done)
    (hfault : done.result = .error (.unassignedRead x)) :
    host.Answers (.unassignedRead x) ∨ w.memory.PointsAt x ∨
      ∃ t k, s₀.Reached t ∧ t.FindsFinished host k x := by
  have hfresh := fresh_of_new hnew
  have hterm : ¬ s.isTerminated := by
    intro hterm
    rw [resume_of_isTerminated hterm] at hcall
    cases hcall
    cases hfault
  obtain ⟨t, k, ht, hk, hturn⟩ := turn_of_resume (hs.reached (isNew_of_new hnew).1 hterm) hcall hfault
  obtain ⟨f', a, hsettled⟩ := Settled.of_reached hfresh ht
  obtain ⟨hf', ha, hdescribes⟩ := hsettled.enters
  have hprogram : t.program = p := ht.program_eq.trans hfresh.program
  rw [hprogram] at hf' ha hdescribes
  rw [ht.analyses_eq] at ha
  obtain rfl : f = f' := Option.some.inj (hf.symm.trans hf')
  obtain ⟨offset, hoffset⟩ := FunctionAnalysis.ofFunction_of_ofProgram hfresh.analyses ha
  obtain ⟨hsize, hphis⟩ := FunctionAnalysis.phiReads_of_ofFunction hoffset hf
  have hnone : a.phiReadsOf Lane.noBlock = [] := by
    rw [FunctionAnalysis.phiReadsOf, Array.getElem?_eq_none (hsize ▸ hblocks)]
    rfl
  have hsupplied := supplied_of_reached hnew ⟨hf, ha, hdescribes, htargets⟩ hnone ht
  have hstage : ∀ l ∈ t.lanes, l.stage = t.program.stage := by
    intro l hl
    rw [hprogram]
    exact congrArg Prod.fst (ht.run hfresh hl).build_eq
  exact (hsupplied.findsFinished hsettled (huse.imp fun _ => .inl) hphis hstage hk hturn).imp_right
    (.imp_right fun hfinds => ⟨t, k, ht, hfinds⟩)

/-- A program in which the lane with the number nought is stopped before a value is computed of which the
    others take the derivative. -/
def discardBeforeDerivative : Program :=
  { stage := .pixel
    functions := #[{
      name := "discardBeforeDerivative"
      blocks := #[{}]
      instrs := #[
        { op := .call, ty := .int 32, result := some ⟨0⟩,
          callee := some (.intrinsic .flattenedThreadIdInGroup) },
        { op := .iEqual, ty := .int 1, args := [.ref ⟨0⟩, .const (.int 32 0)], result := some ⟨1⟩ },
        { op := .call, args := [.ref ⟨1⟩], callee := some (.intrinsic .discard) },
        { op := .uToF, ty := .float 32, args := [.ref ⟨0⟩], result := some ⟨2⟩ },
        { op := .call, ty := .float 32, args := [.ref ⟨2⟩], result := some ⟨3⟩,
          callee := some (.intrinsic .derivCoarseX) },
        { op := .ret }] }]
    idCount := 4 }

theorem discardBeforeDerivative_defines (hf : discardBeforeDerivative.entryFunction? = some f) :
    f.blocks.size ≤ Lane.noBlock ∧ f.TargetsAgree ∧ f.DefinesBeforeUse discardBeforeDerivative.IsGlobal := by
  cases hf
  exact ⟨by decide, by decide, .of_blocks (by decide +kernel)⟩

theorem discardBeforeDerivative_fails : ∃ f, discardBeforeDerivative.entryFunction? = some f ∧
    ∃ s₀, Session.new discardBeforeDerivative {} {} [.numbered 0, .numbered 1, .numbered 2, .numbered 3] 1 {} = .ok s₀ ∧
    ∃ begun, s₀.resume .unbound 1 = some begun ∧ ∃ done, begun.session.resume .unbound 9 = some done ∧
      done.result = .error (.unassignedRead ⟨2⟩) := by
  decide +kernel

/-- What the derivative finds unassigned is the value of the lane that has been stopped. -/
theorem discardBeforeDerivative_finds_finished :
    ∃ s₀ t k, Session.new discardBeforeDerivative {} {} [.numbered 0, .numbered 1, .numbered 2, .numbered 3] 1 {} =
        .ok s₀ ∧
      s₀.Reached t ∧ t.FindsFinished .unbound k ⟨2⟩ := by
  obtain ⟨f, hf, s₀, hnew, begun, hbegun, done, hdone, hfault⟩ := discardBeforeDerivative_fails
  obtain ⟨hblocks, htargets, huse⟩ := discardBeforeDerivative_defines hf
  rcases unassigned_read_is_of_finished_lane hnew hf hblocks htargets huse (Called.fresh.call hbegun) hdone
    hfault with hanswers | ⟨y, q, hq, -⟩ | ⟨t, k, ht, hfinds⟩
  · exact absurd hanswers (Host.not_answers_unbound _)
  · cases hq
  · exact ⟨s₀, t, k, hnew, ht, hfinds⟩

/-- The program is in static single assignment form, its terminators agree with its blocks, and a call fails
    for an unassigned identifier all the same. -/
theorem discardBeforeDerivative_reads_unassigned :
    ∃ f s₀ s results done, discardBeforeDerivative.entryFunction? = some f ∧ f.TargetsAgree ∧
      discardBeforeDerivative.UniqueIds ∧ f.DefinesBeforeUse discardBeforeDerivative.IsGlobal ∧
      Session.new discardBeforeDerivative {} {} [.numbered 0, .numbered 1, .numbered 2, .numbered 3] 1 {} = .ok s₀ ∧
      Called s₀ s results ∧ s.resume .unbound 9 = some done ∧
      done.result = .error (.unassignedRead ⟨2⟩) := by
  obtain ⟨f, hf, s₀, hnew, begun, hbegun, done, hdone, hfault⟩ := discardBeforeDerivative_fails
  obtain ⟨-, htargets, huse⟩ := discardBeforeDerivative_defines hf
  exact ⟨f, s₀, _, _, done, hf, htargets, by decide, huse, hnew, Called.fresh.call hbegun, hdone, hfault⟩

end Session

end Lockstep
