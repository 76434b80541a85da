import Lockstep.Proofs.Flow.Definitions
import Lockstep.Proofs.Flow.Unique
import Lockstep.Proofs.Lane.Run
import Lockstep.Proofs.Lane.Value
import Lockstep.Proofs.Session.Canonical
import Lockstep.Host.Unbound
import Lockstep.Proofs.Typing.Compute

set_option autoImplicit false

/-! # Phi nodes

What the phi nodes of a block read is kept when control leaves the block before, as the analysis collects all
that they may read from there. So each of them takes the value that its operand had at the jump, also when
another phi node has assigned it since, and their order does not matter (`Lane.phis_are_parallel`). -/

namespace Lockstep

namespace Lane

variable {p : Program} {as : Analyses} {globals : List GlobalVar} {l j e : Lane} {i : Instr} {id x : Id}
  {v : Variable} {s : Setting} {w : World} {a : FunctionAnalysis}

/-! ## Operands -/

/-- The value that the operand of a phi node has for the block that the lane is in. -/
def incoming? (l : Lane) (i : Instr) : Option Variable :=
  match phiOperand l.block i.args with
  | .ok (some o) => (l.operand o false).toOption
  | _ => none

/-- The value that a phi node takes. -/
def taken? (l : Lane) (i : Instr) : Option Variable :=
  match phiOperand l.previousBlock i.args with
  | .ok (some (.ref src)) => l.phiValues.get? src
  | .ok (some o) => (l.operand o false).toOption
  | _ => none

/-- A phi node gives the value that it takes, and fails if there is none. -/
theorem phi_eq_ok_iff (hid : i.result = some id) {eff : Effect} :
    l.phi i = .ok eff ↔ ∃ v, l.taken? i = some v ∧ eff = .value id (v.withName (i.resultName id)) := by
  have hok : ∀ v : Variable, (.ok (.value id (v.withName (i.resultName id))) : Except Fault Effect) = .ok eff ↔
      ∃ v', some v = some v' ∧ eff = .value id (v'.withName (i.resultName id)) := by
    intro v
    simp [eq_comm]
  unfold phi taken? Instr.resultId
  rw [hid]
  dsimp only [bind, Except.bind]
  cases phiOperand l.previousBlock i.args with
  | error fault => simp
  | ok o =>
      cases o with
      | none => simp [throw, throwThe, MonadExceptOf.throw]
      | some o =>
          cases o with
          | ref src =>
              dsimp only
              cases l.phiValues.get? src with
              | none => simp [throw, throwThe, MonadExceptOf.throw]
              | some v => exact hok v
          | const c => exact hok _
          | undef ty => exact hok _
          | block b => simp [operand, Except.map, Except.toOption]

theorem get?_phiSnapshot {b : Nat} (hx : x ∈ a.phiReadsOf b) : (l.phiSnapshot a b).get? x = l.value? x := by
  unfold phiSnapshot
  cases hvalue : l.value? x with
  | some v =>
      have hmem : (x, v) ∈ (a.phiReadsOf b).filterMap fun id => (l.value? id).map fun v => (id, v) :=
        List.mem_filterMap.2 ⟨x, hx, by rw [hvalue]; rfl⟩
      obtain ⟨v', hv'⟩ := Option.isSome_iff_exists.1 (Table.isSome_get?_ofList hmem)
      obtain ⟨id, -, hpair⟩ := List.mem_filterMap.1 (Table.mem_of_get?_ofList hv')
      obtain ⟨v'', hid, heq⟩ := Option.map_eq_some_iff.1 hpair
      cases heq
      rw [hv', ← hvalue, hid]
  | none =>
      refine Option.eq_none_iff_forall_ne_some.2 fun v hv => ?_
      obtain ⟨id, -, hpair⟩ := List.mem_filterMap.1 (Table.mem_of_get?_ofList hv)
      obtain ⟨v', hid, heq⟩ := Option.map_eq_some_iff.1 hpair
      cases heq
      rw [hvalue] at hid
      cases hid

/-! ## Jumps -/

/-- The lane ends its block by a step and goes on at another. -/
inductive Jumps (p : Program) (as : Analyses) (l : Lane) : Lane → Prop
  | mk {a : FunctionAnalysis} {i : Instr} {s : Setting} {w : World} {state : StepState}
      (hp : s.program = p) (has : s.analyses = as) (hfin : ¬ l.isFinished) (hnext : l.nextInstr p as = .ok (a, i))
      (hi : i.isTerminator) (hok : (l.step s w).result = .ok state) (hruns : ¬ (l.step s w).lane.isFinished) :
      Jumps p as l (l.step s w).lane

/-- What a lane keeps at a jump. -/
theorem Jumps.kept (h : l.Jumps p as j) : ∃ a, as.of? l.function = some a ∧ j.function = l.function ∧
    j.previousBlock = l.block ∧ j.phiValues = l.phiSnapshot a l.block ∧ j.value? = l.value? := by
  obtain @⟨a, i, s, w, state, hp, has, hfin, hnext, hi, hok, hruns⟩ := h
  subst hp has
  obtain ⟨m, hm, hstep, -⟩ := execute_of_step hfin hok
  obtain ⟨a', i', o, m₁, hnext', ho, hend⟩ := Step.execute_iff.1 hm
  cases hnext.symm.trans hnext'
  -- a terminator leaves the machine as it is
  obtain rfl : m₁ = { lane := l.advanced, world := w } := by
    unfold Step.instruction at ho
    rw [if_pos hi] at ho
    obtain ⟨_, _, hlane, ho⟩ := Step.ok_of_on_bind ho
    cases hlane
    exact (congrArg Prod.snd ho).symm
  have hconcludes := Step.concludes_of_conclude (Step.instruction_ok ho).2 hend
  refine ⟨_, (nextInstr_eq_ok hnext).1, ?_⟩
  rw [hstep] at hruns ⊢
  generalize m.lane = j at hconcludes hruns
  cases hconcludes with
  | proceed hno => exact absurd hi hno
  | assign _ _ hno _ => exact absurd hi hno
  | leave => exact absurd (by simp [isFinished]) hruns
  | kill => exact absurd (by simp [isFinished]) hruns
  | jump b l' _ _ hl' =>
      obtain ⟨_, -, rfl⟩ := jumpTo_ok hl'
      exact ⟨rfl, rfl, rfl, value_retire ..⟩

/-- What the phi nodes depend on that a lane comes to. -/
def origin (l : Lane) : Nat × Nat × Table Id Variable := (l.function, l.previousBlock, l.phiValues)

/-- After a jump a phi node takes the value that its operand had before. -/
theorem Jumps.taken_eq (has : FunctionAnalysis.ofProgram p = .ok as) (h : l.Jumps p as j)
    (horigin : e.origin = j.origin) (hnext : e.nextInstr p as = .ok (a, i)) (hop : i.op = .phi) :
    e.taken? i = l.incoming? i := by
  obtain ⟨hfunction, hrest⟩ := Prod.mk.inj horigin
  obtain ⟨hprevious, hphis⟩ := Prod.mk.inj hrest
  obtain ⟨a', ha', hfunction', hblock, hkept, -⟩ := h.kept
  obtain ⟨-, f, hf, hi⟩ := nextInstr_eq_ok hnext
  rw [hfunction, hfunction'] at hf
  obtain ⟨offset, hoffset⟩ := FunctionAnalysis.ofFunction_of_ofProgram has ha'
  unfold taken? incoming?
  rw [hprevious, hphis, hblock, hkept]
  cases hphi : phiOperand l.block i.args with
  | error fault => rfl
  | ok o =>
      cases o with
      | none => rfl
      | some o =>
          cases o with
          | ref src =>
              -- the analysis has noted that the phi node may read this identifier
              have hsrc := (FunctionAnalysis.phiReads_of_ofFunction hoffset hf).2
                (Array.mem_of_getElem? hi) hop hphi
              dsimp only [operand]
              rw [get?_phiSnapshot hsrc]
              cases l.value? src <;> rfl
          | _ => rfl

/-! ## Steps -/

theorem not_isTerminator_of_phi (hop : i.op = .phi) : ¬ i.isTerminator := by
  unfold Instr.isTerminator
  rw [hop]
  exact Bool.false_ne_true

/-- A step that executes a phi node succeeds exactly if there is a value to take, and assigns this value. -/
theorem step_phi (hat : e.AboutTo s.program s.analyses i id) (hop : i.op = .phi) :
    ((∃ state, (e.step s w).result = .ok state) ↔ (e.taken? i).isSome) ∧
      ∀ v, e.taken? i = some v → ∃ a, (e.step s w).lane = e.taking a id (v.withName (i.resultName id)) := by
  have hcompute : (Step.compute s i).on { lane := e.advanced, world := w } =
      (e.phi i, { lane := e.advanced, world := w }) := Step.on_compute_phi hop
  have hvalue : ∀ v, e.taken? i = some v → ∃ a state, e.step s w =
      { lane := e.taking a id (v.withName (i.resultName id)), world := w, result := .ok state } := by
    intro v hv
    have hassigned : i.assigned (v.withName (i.resultName id)) = v.withName (i.resultName id) := by
      rw [Instr.assigned, Instr.isFlushing, hop]
      rfl
    rw [(phi_eq_ok_iff hat.result).2 ⟨v, hv, rfl⟩] at hcompute
    obtain ⟨a, state, hstep⟩ := hat.step_eq hcompute
    rw [hassigned] at hstep
    exact ⟨a, state, hstep⟩
  refine ⟨⟨?_, fun hsome => ?_⟩, fun v hv => ?_⟩
  · rintro ⟨state, hok⟩
    obtain ⟨a, hnext⟩ := hat.next
    obtain ⟨o, ho⟩ := instruction_of_step hat.running hnext hok
    obtain ⟨eff, -, heff⟩ := Step.compute_of_instruction (not_isTerminator_of_phi hop) (Prod.ext ho rfl)
    rw [hcompute] at heff
    obtain ⟨v, hv, -⟩ := (phi_eq_ok_iff hat.result).1 (congrArg Prod.fst heff)
    rw [hv]
    rfl
  · obtain ⟨v, hv⟩ := Option.isSome_iff_exists.1 hsome
    obtain ⟨_, state, hstep⟩ := hvalue v hv
    exact ⟨state, by rw [hstep]⟩
  · obtain ⟨a, _, hstep⟩ := hvalue v hv
    exact ⟨a, by rw [hstep]⟩

/-- A phi node whose step succeeds has a result that the lane has a place for, and a value to take. -/
theorem taken_of_step_phi {state : StepState} (hfin : ¬ e.isFinished)
    (hnext : e.nextInstr s.program s.analyses = .ok (a, i)) (hop : i.op = .phi)
    (hok : (e.step s w).result = .ok state) : ∃ id v a', e.AboutTo s.program s.analyses i id ∧
      e.taken? i = some v ∧ (e.step s w).lane = e.taking a' id (v.withName (i.resultName id)) := by
  obtain ⟨m, hm, -, -⟩ := execute_of_step hfin hok
  obtain ⟨a', i', o, m₁, hnext', ho, hend⟩ := Step.execute_iff.1 hm
  cases hnext.symm.trans hnext'
  obtain ⟨eff, rfl, heff⟩ := Step.compute_of_instruction (not_isTerminator_of_phi hop) ho
  obtain ⟨hphi, rfl⟩ := Prod.mk.inj ((Step.on_compute_phi hop).symm.trans heff)
  obtain ⟨id, hid, -⟩ := ok_of_bind hphi
  have hresult : i.result = some id := by
    unfold Instr.resultId at hid
    split at hid <;> cases hid
    assumption
  obtain ⟨v, hv, rfl⟩ := (phi_eq_ok_iff (l := e.advanced) hresult).1 hphi
  obtain ⟨_, m₂, hretire, hassign⟩ := Step.ok_of_on_bind hend
  cases (Step.on_retire ..).symm.trans hretire
  have hplace := (Step.assign_ok hassign).1
  have hat : e.AboutTo s.program s.analyses i id :=
    ⟨hfin, ⟨_, hnext⟩, hresult, by simpa [hasPlace, retire, advanced] using hplace⟩
  obtain ⟨a', hlane⟩ := (step_phi (w := w) hat hop).2 v hv
  exact ⟨id, v, a', hat, hv, hlane⟩

/-! ## Groups of phi nodes -/

theorem origin_taking : (e.taking a id v).origin = e.origin ∧ (e.taking a id v).instr = e.instr + 1 := by
  obtain ⟨cells, input, output, h⟩ := taking_eq e a id v
  rw [h]
  exact ⟨rfl, rfl⟩

theorem origin_of_refreshGlobals {memory : Memory} {e' : Lane}
    (h : e.refreshGlobals memory globals = (.ok (), e')) : e'.origin = e.origin ∧ e'.instr = e.instr := by
  have hframe := frame_refreshGlobals e memory globals
  rw [h] at hframe
  have horigin : e'.frame.origin = e.frame.origin ∧ e'.frame.instr = e.frame.instr := by
    rw [hframe]
    exact ⟨rfl, rfl⟩
  exact horigin

theorem origin_skipNops (e : Lane) (p : Program) :
    (e.skipNops p).origin = e.origin ∧ e.instr ≤ (e.skipNops p).instr := by
  unfold skipNops
  split
  · exact ⟨rfl, Nat.le_refl _⟩
  · exact ⟨rfl, Nat.le_add_right ..⟩

/-- The lane has executed phi nodes since it was at the start of a block. In between it may have read global
    variables again and moved past markers, and other lanes may have done anything. -/
inductive Phis (p : Program) (as : Analyses) (globals : List GlobalVar) (j : Lane) : List Instr → Lane → Prop
  | start : Phis p as globals j [] j
  | phi {is : List Instr} {e : Lane} {a : FunctionAnalysis} {i : Instr} {s : Setting} {w : World}
      {state : StepState} (h : Phis p as globals j is e) (hp : s.program = p) (has : s.analyses = as)
      (hfin : ¬ e.isFinished) (hnext : e.nextInstr p as = .ok (a, i)) (hop : i.op = .phi)
      (hok : (e.step s w).result = .ok state) : Phis p as globals j (is ++ [i]) (e.step s w).lane
  | refreshed {is : List Instr} {e e' : Lane} {memory : Memory} (h : Phis p as globals j is e)
      (hok : e.refreshGlobals memory globals = (.ok (), e')) : Phis p as globals j is e'
  | skipped {is : List Instr} {e : Lane} (h : Phis p as globals j is e) : Phis p as globals j is (e.skipNops p)

namespace Phis

variable {is : List Instr}

/-- The phi nodes still to come depend on what the lane came with. -/
theorem origin_eq (h : Phis p as globals j is e) : e.origin = j.origin := by
  induction h with
  | start => rfl
  | @phi is e a i s w state _ hp has hfin hnext hop hok ih =>
      subst hp has
      obtain ⟨id, v, a', -, -, hlane⟩ := taken_of_step_phi hfin hnext hop hok
      rw [hlane, origin_taking.1, ih]
  | refreshed _ hok ih => exact (origin_of_refreshGlobals hok).1.trans ih
  | @skipped is e _ ih => exact (origin_skipNops e p).1.trans ih

/-- The lane is behind the phi nodes that it has executed. -/
theorem behind (h : Phis p as globals j is e) (hi : i ∈ is) :
    i.op = .phi ∧ ∃ f k, p.functions[j.function]? = some f ∧ f.instrs[k]? = some i ∧ k < e.instr := by
  induction h with
  | start => exact absurd hi List.not_mem_nil
  | @phi is e a i' s w state h hp has hfin hnext hop hok ih =>
      have hfunction : e.function = j.function := congrArg Prod.fst h.origin_eq
      subst hp has
      obtain ⟨id, v, a', -, -, hlane⟩ := taken_of_step_phi hfin hnext hop hok
      rw [hlane, origin_taking.2]
      rcases List.mem_append.1 hi with hi | hi
      · obtain ⟨hphi, f, k, hf, hk, hlt⟩ := ih hi
        exact ⟨hphi, f, k, hf, hk, Nat.lt_succ_of_lt hlt⟩
      · obtain rfl := List.mem_singleton.1 hi
        obtain ⟨-, f, hf, hi⟩ := nextInstr_eq_ok hnext
        rw [hfunction] at hf
        exact ⟨hop, f, e.instr, hf, hi, Nat.lt_succ_self _⟩
  | @refreshed is e e' memory _ hok ih =>
      rw [(origin_of_refreshGlobals hok).2]
      exact ih hi
  | @skipped is e _ ih =>
      obtain ⟨hphi, f, k, hf, hk, hlt⟩ := ih hi
      exact ⟨hphi, f, k, hf, hk, Nat.lt_of_lt_of_le hlt (origin_skipNops e p).2⟩

/-- A phi node does not assign what another one before it has assigned. -/
theorem result_ne {i' : Instr} (has : FunctionAnalysis.ofProgram p = .ok as) (h : Phis p as globals j is e)
    (hi : i ∈ is) (hx : i.result = some x) (hnext : e.nextInstr p as = .ok (a, i')) (hop : i'.op = .phi) :
    i'.result ≠ some x := by
  intro hx'
  have hdefined : ∀ {i : Instr}, i.op = .phi → i.defined? = i.result := by
    intro i hop
    unfold Instr.defined? Instr.isNop
    rw [hop]
    rfl
  obtain ⟨hop', f, k, hf, hk, hlt⟩ := h.behind hi
  have hfunction : e.function = j.function := congrArg Prod.fst h.origin_eq
  obtain ⟨ha, f', hf', hi'⟩ := nextInstr_eq_ok hnext
  rw [hfunction] at hf'
  obtain rfl : f = f' := Option.some.inj (hf.symm.trans hf')
  obtain ⟨offset, hoffset⟩ := FunctionAnalysis.ofFunction_of_ofProgram has ha
  obtain ⟨f', hf'', hdescribes⟩ := FunctionAnalysis.describes_of_ofFunction hoffset
  rw [hfunction] at hf''
  obtain rfl : f = f' := Option.some.inj (hf.symm.trans hf'')
  have heq := hdescribes.eq_of_defined hk hi' ((hdefined hop').trans hx) ((hdefined hop).trans hx')
  exact absurd heq (Nat.ne_of_lt hlt)

/-- The operand of a phi node that was executed had a value. -/
theorem incoming_of_mem (has : FunctionAnalysis.ofProgram p = .ok as) (hjump : l.Jumps p as j)
    (h : Phis p as globals j is e) (hi : i ∈ is) : ∃ id v, i.result = some id ∧ l.incoming? i = some v := by
  induction h with
  | start => exact absurd hi List.not_mem_nil
  | @phi is e a i' s w state h hp has' hfin hnext hop hok ih =>
      rcases List.mem_append.1 hi with hi | hi
      · exact ih hi
      · obtain rfl := List.mem_singleton.1 hi
        have htaken := hjump.taken_eq has h.origin_eq hnext hop
        subst hp has'
        obtain ⟨id, v, -, hat, hv, -⟩ := taken_of_step_phi hfin hnext hop hok
        exact ⟨id, v, hat.result, htaken ▸ hv⟩
  | refreshed _ _ ih => exact ih hi
  | skipped _ ih => exact ih hi

/-- What the step does of a phi node that comes next. -/
theorem step (has : FunctionAnalysis.ofProgram p = .ok s.analyses) (hp : s.program = p)
    (hjump : l.Jumps p s.analyses j) (h : Phis p s.analyses globals j is e)
    (hat : e.AboutTo s.program s.analyses i id) (hop : i.op = .phi) :
    ((∃ state, (e.step s w).result = .ok state) ↔ (l.incoming? i).isSome) ∧
      ∀ v, l.incoming? i = some v →
        (e.step s w).lane.value? = Function.update e.value? id (some (v.withName (i.resultName id))) := by
  subst hp
  obtain ⟨a, hnext⟩ := hat.next
  obtain ⟨hsome, hlane⟩ := step_phi (w := w) hat hop
  rw [hjump.taken_eq has h.origin_eq hnext hop] at hsome hlane
  refine ⟨hsome, fun v hv => ?_⟩
  obtain ⟨a', hlane⟩ := hlane v hv
  rw [hlane, value_taking hat.place]

/-- The values after phi nodes: those that they take, and for any other identifier the value from before. -/
theorem value_eq (has : FunctionAnalysis.ofProgram p = .ok as) (hjump : l.Jumps p as j)
    (h : Phis p as globals j is e) (hx : x ∉ globals.map (·.id)) :
    (∀ i ∈ is, i.result = some x → ∃ v, l.incoming? i = some v ∧ e.value? x = some (v.withName (i.resultName x))) ∧
      ((∀ i ∈ is, i.result ≠ some x) → e.value? x = l.value? x) := by
  induction h with
  | start =>
      obtain ⟨_, -, -, -, -, hvalue⟩ := hjump.kept
      exact ⟨fun _ hi => absurd hi List.not_mem_nil, fun _ => congrFun hvalue x⟩
  | @phi is e a i' s w state h hp has' hfin hnext hop hok ih =>
      have hne := fun i (hi : i ∈ is) (hx : i.result = some x) => h.result_ne has hi hx hnext hop
      have htaken := hjump.taken_eq has h.origin_eq hnext hop
      subst hp has'
      obtain ⟨id, v, a', hat, hv, hlane⟩ := taken_of_step_phi hfin hnext hop hok
      rw [htaken] at hv
      rw [hlane, value_taking hat.place]
      refine ⟨fun i hi hresult => ?_, fun hno => ?_⟩
      · rcases List.mem_append.1 hi with hi | hi
        · rw [Function.update_of_ne fun heq : x = id => hne i hi hresult (heq ▸ hat.result)]
          exact ih.1 i hi hresult
        · obtain rfl := List.mem_singleton.1 hi
          obtain rfl : id = x := Option.some.inj (hat.result.symm.trans hresult)
          rw [Function.update_self]
          exact ⟨v, hv, rfl⟩
      · rw [Function.update_of_ne fun heq : x = id => hno i' (by simp) (heq ▸ hat.result)]
        exact ih.2 fun i hi => hno i (List.mem_append_left _ hi)
  | @refreshed is e e' memory _ hok ih =>
      rw [(value_refreshGlobals hok x).1 hx]
      exact ih
  | @skipped is e _ ih =>
      rw [value_skipNops]
      exact ih

end Phis

theorem incoming_congr {l' : Lane} (hblock : l'.block = l.block) (hvalue : l'.value? = l.value?) (i : Instr) :
    l'.incoming? i = l.incoming? i := by
  unfold incoming? operand
  rw [hblock, hvalue]

/-- The lane jumps in an analysed program, and then executes phi nodes. -/
def TakesPhis (p : Program) (globals : List GlobalVar) (l : Lane) (is : List Instr) (e : Lane) : Prop :=
  ∃ as j, FunctionAnalysis.ofProgram p = .ok as ∧ l.Jumps p as j ∧ Phis p as globals j is e

/-- Phi nodes that are executed after a jump assign the values that their operands had at the jump, and nothing
    else changes but for global variables, which may be read again. The step of one that comes next succeeds
    exactly if its operand had a value, and assigns this value. If another program has the same phi nodes in
    another order, they leave the same values when they are executed after a jump from the same block with the
    same values, and succeed wherever they come. -/
theorem phis_are_parallel {is : List Instr} (h : TakesPhis p globals l is e) :
    (∀ x, x ∉ globals.map (·.id) →
      (∀ i ∈ is, i.result = some x →
        ∃ v, l.incoming? i = some v ∧ e.value? x = some (v.withName (i.resultName x))) ∧
      ((∀ i ∈ is, i.result ≠ some x) → e.value? x = l.value? x)) ∧
    (∀ i id s w, FunctionAnalysis.ofProgram p = .ok s.analyses → s.program = p →
      e.AboutTo s.program s.analyses i id → i.op = .phi →
        ((∃ state, (e.step s w).result = .ok state) ↔ (l.incoming? i).isSome) ∧
        ∀ v, l.incoming? i = some v →
          (e.step s w).lane.value? = Function.update e.value? id (some (v.withName (i.resultName id)))) ∧
    ∀ p' globals' l' is' e', TakesPhis p' globals' l' is' e' → l'.block = l.block → l'.value? = l.value? →
      (is'.Perm is → ∀ x, x ∉ globals.map (·.id) → x ∉ globals'.map (·.id) → e'.value? x = e.value? x) ∧
      ∀ i ∈ is, ∀ id s w, FunctionAnalysis.ofProgram p' = .ok s.analyses → s.program = p' →
        e'.AboutTo s.program s.analyses i id → ∃ state, (e'.step s w).result = .ok state := by
  obtain ⟨as, j, has, hjump, hphis⟩ := h
  refine ⟨fun x hx => hphis.value_eq has hjump hx, fun i id s w has' hp hat hop => ?_, ?_⟩
  · cases has.symm.trans has'
    exact hphis.step has hp hjump hat hop
  rintro p' globals' l' is' e' ⟨as', j', has', hjump', hphis'⟩ hblock hvalue
  refine ⟨fun hperm x hx hx' => ?_, fun i hi id s w has'' hp hat => ?_⟩
  · obtain ⟨hassigned, hother⟩ := hphis.value_eq has hjump hx
    obtain ⟨hassigned', hother'⟩ := hphis'.value_eq has' hjump' hx'
    by_cases hmem : ∃ i ∈ is, i.result = some x
    · obtain ⟨i, hi, hresult⟩ := hmem
      obtain ⟨v, hv, hend⟩ := hassigned i hi hresult
      obtain ⟨v', hv', hend'⟩ := hassigned' i (hperm.mem_iff.2 hi) hresult
      rw [incoming_congr hblock hvalue, hv] at hv'
      cases hv'
      rw [hend, hend']
    · rw [hother fun i hi hresult => hmem ⟨i, hi, hresult⟩,
        hother' fun i hi hresult => hmem ⟨i, hperm.mem_iff.1 hi, hresult⟩, hvalue]
  · cases has'.symm.trans has''
    obtain ⟨_, v, -, hv⟩ := hphis.incoming_of_mem has hjump hi
    refine (hphis'.step has' hp hjump' hat (hphis.behind hi).1).1.2 ?_
    rw [incoming_congr hblock hvalue, hv]
    rfl

/-- Exchanges two numbers in each round of a loop. -/
def exchangeLoop : Program :=
  { stage := .compute
    functions := #[{
      name := "exchangeLoop"
      blocks := #[{}, { preds := [0, 1] }, { preds := [1] }]
      instrs := #[
        { op := .br, args := [.block 1] },
        { op := .phi, ty := .int 32, result := some ⟨0⟩,
          args := [.const (.int 32 1), .block 0, .ref ⟨1⟩, .block 1] },
        { op := .phi, ty := .int 32, result := some ⟨1⟩,
          args := [.const (.int 32 2), .block 0, .ref ⟨0⟩, .block 1] },
        { op := .br, args := [.block 1, .block 2, .const (.int 1 1)] },
        { op := .ret }] }]
    idCount := 2 }

/-- What the lane of this program is about to do: its step, by an instruction of some kind, succeeds. -/
def RunsNext (e : Lane) (s : Session) (P : Instr → Prop) : Prop :=
  ¬ e.isFinished ∧ (∃ state, (e.step (s.setting .unbound 0) s.world).result = .ok state) ∧
    ∃ x, e.nextInstr s.program s.analyses = .ok x ∧ P x.2

instance (e : Lane) (s : Session) (P : Instr → Prop) [DecidablePred P] : Decidable (e.RunsNext s P) :=
  inferInstanceAs (Decidable (_ ∧ _))

set_option synthInstance.maxSize 512 in
/-- The second phi node takes what the first had, although the first has been assigned since. -/
theorem exchangeLoop_exchanges :
    ∃ (s₀ s : Session) (l e : Lane) (is : List Instr) (x y : Variable),
      Session.new exchangeLoop {} {} [{}] 0 {} = .ok s₀ ∧ s₀.start.session.advance .unbound 3 = .ok s ∧
      s.lanes[0]? = some l ∧ TakesPhis exchangeLoop [] l is e ∧ is.length = 2 ∧
      e.value? ⟨0⟩ = some x ∧ x.get 0 = 2 ∧ e.value? ⟨1⟩ = some y ∧ y.get 0 = 1 := by
  have h : ∃ s₀, Session.new exchangeLoop {} {} [{}] 0 {} = .ok s₀ ∧ ∃ states, s₀.start.result = .ok states ∧
      ∃ s, s₀.start.session.advance .unbound 3 = .ok s ∧ ∃ l, s.lanes[0]? = some l ∧
      (l.RunsNext s (·.isTerminator) ∧
      ∃ j, some (l.step (s.setting .unbound 0) s.world).lane = some j ∧
      (j.RunsNext s (fun i => i.op = .phi ∧ i.result = some ⟨0⟩ ∧ ∃ v, l.incoming? i = some v ∧ v.get 0 = 2) ∧
      ∃ e, some (j.step (s.setting .unbound 0) s.world).lane = some e ∧
      e.RunsNext s (fun i => i.op = .phi ∧ i.result = some ⟨1⟩ ∧ ∃ v, l.incoming? i = some v ∧ v.get 0 = 1))) := by
    decide +kernel
  obtain ⟨s₀, hnew, _, hstart, s, hs, l, hl, ⟨hfin, ⟨_, hok⟩, ⟨a, i⟩, hnext, hi⟩, j, hj,
    ⟨hfin₁, ⟨_, hok₁⟩, ⟨a₁, i₁⟩, hnext₁, hop₁, hid₁, v₁, hv₁, htwo⟩, e, he,
    hfin₂, ⟨_, hok₂⟩, ⟨a₂, i₂⟩, hnext₂, hop₂, hid₂, v₂, hv₂, hone⟩ := h
  cases hj
  cases he
  have hreached := (Session.Reached.started hstart).advance hs
  have hfresh := Session.fresh_of_new hnew
  have hprogram : s.program = exchangeLoop := hreached.program_eq.trans hfresh.program
  have hanalyses : FunctionAnalysis.ofProgram exchangeLoop = .ok s.analyses := by
    rw [hreached.analyses_eq]
    exact hfresh.analyses
  rw [hprogram] at hnext hnext₁ hnext₂
  have htakes : TakesPhis exchangeLoop [] l ([] ++ [i₁] ++ [i₂]) _ :=
    ⟨s.analyses, _, hanalyses, .mk hprogram rfl hfin hnext hi hok hfin₁,
      .phi (.phi .start hprogram rfl hfin₁ hnext₁ hop₁ hok₁) hprogram rfl hfin₂ hnext₂ hop₂ hok₂⟩
  have hvalues := (phis_are_parallel htakes).1
  obtain ⟨u, hu, hx⟩ := (hvalues ⟨0⟩ List.not_mem_nil).1 i₁ (by simp) hid₁
  obtain ⟨u', hu', hy⟩ := (hvalues ⟨1⟩ List.not_mem_nil).1 i₂ (by simp) hid₂
  cases hv₁.symm.trans hu
  cases hv₂.symm.trans hu'
  exact ⟨s₀, s, l, _, _, _, _, hnew, hs, hl, htakes, rfl, hx, htwo, hy, hone⟩

end Lane

end Lockstep
