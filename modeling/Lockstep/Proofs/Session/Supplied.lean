import Lockstep.Proofs.Exec.Finds
import Lockstep.Proofs.Flow.Definitions
import Lockstep.Proofs.Lane.Barrier
import Lockstep.Proofs.Session.Changes

set_option autoImplicit false

/-! # Lanes that find what they read

In a function in static single assignment form, a lane that is not finished has a value for everything
that is defined before its instruction, and for what phi nodes may read for the block that it came from
(`Lane.Supplied`). Its pointers lead to what has a value, or to what the memory pointed at before the
session was made. A step gives the result of its instruction a value and takes none away
(`Lane.Supplied.step`). So a lane misses nothing of its own (`Lane.Supplied.of_misses`). -/

namespace Lockstep

/-- The memory has a pointer for the identifier, or one to its allocation. -/
def Memory.PointsAt (m : Memory) (x : Id) : Prop :=
  ∃ y q, m.pointer? y = some q ∧ (x = y ∨ x = q.base)

theorem Memory.pointsIn_self (m : Memory) : m.PointsIn m.PointsAt :=
  fun hq => ⟨⟨_, _, hq, .inl rfl⟩, ⟨_, _, hq, .inr rfl⟩⟩

namespace Lane

variable {p : Program} {b : Bindings} {as : Analyses} {liveGlobals : Array Bool} {given lent : Id → Prop}
  {f : Function} {a : FunctionAnalysis} {s : Setting} {w : World} {i : Instr} {l l' : Lane} {x : Id}
  {state : StepState}

/-! ## Values of a step -/

/-- An outcome that is carried out takes no values away. -/
theorem Concludes.isSome_value (h : l.Concludes a i l') (hx : (l.value? x).isSome) :
    (l'.value? x).isSome := by
  cases h with
  | proceed _ => rwa [value_retire]
  | assign id v _ hid =>
      have hplace : (l.retire a (some id)).hasPlace id := by simpa [hasPlace, retire] using hid
      rw [value_bringIntoScope, value_assign hplace, value_retire, Function.update_apply]
      split
      · rfl
      · exact hx
  | jump b l₁ _ _ hl =>
      rw [value_retire, (value_jumpTo hl).1]
      exact hx
  | leave _ => exact hx
  | kill => exact hx

/-- A step takes no values away. -/
theorem isSome_value_of_step (hfin : ¬ l.isFinished) (hok : (l.step s w).result = .ok state)
    (hx : (l.value? x).isSome) : ((l.step s w).lane.value? x).isSome := by
  obtain ⟨a, i, l₁, -, hframe, hconcludes⟩ := step_cases hfin hok
  refine hconcludes.isSome_value ?_
  rw [isSome_value_of_frame hframe]
  exact hx

/-- A step gives the result of its instruction a value, if that has one. -/
theorem isSome_result_of_step (hfin : ¬ l.isFinished) (hok : (l.step s w).result = .ok state)
    (hnext : l.nextInstr s.program s.analyses = .ok (a, i)) (hi : i.produces) (hx : i.result = some x) :
    ((l.step s w).lane.value? x).isSome := by
  have hset : ∀ {d : Holdings} {id v}, i.result = some id → ((d.set id v).values x).isSome := by
    intro d id v hid
    cases hx.symm.trans hid
    rw [Holdings.set_self]
    rfl
  by_cases hwrites : i.writesMemory
  · obtain ⟨a', i', hnext', hdoes⟩ := does_of_step hfin hok
    cases hnext.symm.trans hnext'
    have huses := Instr.usesMemory_of_writesMemory hwrites
    show (((l.step s w).lane.holdings (l.step s w).world).values x).isSome
    generalize (l.step s w).lane.holdings (l.step s w).world = d at hdoes
    cases hdoes with
    | rests hno => exact absurd huses hno
    | gives hno _ _ => exact absurd huses hno
    | allocates _ hid _ => exact hset hid
    | loads _ hid _ _ _ => exact hset hid
    | derives _ hid _ _ => exact hset hid
    | stores hop _ _ _ _ _ =>
        refine absurd hi ?_
        rcases hop with hop | hop <;> simp [Instr.produces, hop]
    | updates _ _ _ _ _ _ _ _ =>
        rw [hx]
        exact hset hx
  · obtain ⟨m, hm, hstep, -⟩ := execute_of_step hfin hok
    obtain ⟨a', i', o, m₁, hnext', ho, hend⟩ := Step.execute_iff.1 hm
    cases hnext.symm.trans hnext'
    obtain ⟨v, report, rfl⟩ := Step.assigns_of_produces hwrites hi hx ho
    rw [hstep]
    show ((m.lane.holdings m.world).values x).isSome
    rcases Step.holdings_of_conclude hend with ⟨id, v', report', heq, hset'⟩ | ⟨hne, -⟩
    · cases heq
      rw [hset']
      exact hset hx
    · exact absurd rfl (hne x v report)

/-! ## Lanes that have what they read -/

/-- A lane has what is available at its place, and what phi nodes there read. -/
structure Supplied (p : Program) (given lent : Id → Prop) (f : Function) (a : FunctionAnalysis)
    (l : Lane) : Prop where
  sound : l.place.Sound f a p.entry
  values : ∀ {x}, f.Available given l.instr x → (l.value? x).isSome
  phis : ∀ {x}, x ∈ a.phiReadsOf l.previousBlock → f.AvailableAtEnd given l.previousBlock x →
    (l.phiValues.get? x).isSome
  pointers : l.memory.PointsIn fun x => (l.value? x).isSome ∨ lent x

namespace Supplied

theorem isSome_of_given (h : l.Supplied p given lent f a) (hx : given x) : (l.value? x).isSome :=
  h.values (.inl hx)

/-- The allocation that a pointer leads to has a value, unless it was pointed at from the start. -/
theorem base_of_resolve (h : l.Supplied p given lent f a) {shared : Memory}
    (hshared : shared.PointsIn fun x => given x ∨ lent x) {src : Id} {q : Pointer}
    (hq : l.resolve shared src = .ok q) : (l.value? q.base).isSome ∨ lent q.base :=
  (pointsIn_of_resolve h.pointers
    (fun hq => (hshared hq).imp (.imp_left h.isSome_of_given) (.imp_left h.isSome_of_given)) hq).2

/-- A lane that came from the same block with the same values has what phi nodes read there. -/
theorem phis_of_eq (h : l.Supplied p given lent f a) (hprevious : l'.previousBlock = l.previousBlock)
    (hphis : l'.phiValues = l.phiValues) (hx : x ∈ a.phiReadsOf l'.previousBlock)
    (hend : f.AvailableAtEnd given l'.previousBlock x) : (l'.phiValues.get? x).isSome := by
  rw [hprevious] at hx hend
  rw [hphis]
  exact h.phis hx hend

/-- What phi nodes may read at the place that a step leads to has a value. -/
theorem phis_of_concludes (h : l.Supplied p given lent f a) {l₁ : Lane} (hi : f.instrs[l.instr]? = some i)
    (hframe : l₁.frame = l.advanced.frame) (hconcludes : l₁.Concludes a i l') (hfin : ¬ l'.isFinished)
    (hx : x ∈ a.phiReadsOf l'.previousBlock) (hend : f.AvailableAtEnd given l'.previousBlock x) :
    (l'.phiValues.get? x).isSome := by
  have hprevious : l₁.frame.previousBlock = l.previousBlock := congrArg (fun k => k.previousBlock) hframe
  have hphis : l₁.frame.phiValues = l.phiValues := congrArg (fun k => k.phiValues) hframe
  have hblock : l₁.frame.block = l.block := congrArg (fun k => k.block) hframe
  cases hconcludes with
  | proceed _ => exact h.phis_of_eq hprevious hphis hx hend
  | assign id v _ _ =>
      have hprevious' := previousBlock_assign (l₁.retire a (some id)) id v
      have hphis' := phiValues_assign (l₁.retire a (some id)) id v
      exact h.phis_of_eq (hprevious'.trans hprevious) (hphis'.trans hphis) hx hend
  | jump c l₂ ht _ hl =>
      obtain ⟨_, -, rfl⟩ := jumpTo_ok hl
      have hx : x ∈ a.phiReadsOf l.block := hblock ▸ hx
      have hend : f.AvailableAtEnd given l.block x := hblock ▸ hend
      -- what is kept at a jump is what is available at its instruction
      rw [show l.block = f.blockOf l.instr from h.sound.block] at hend
      have hsome : (l₁.value? x).isSome := by
        rw [isSome_value_of_frame hframe]
        exact h.values (hend.available hi ht)
      obtain ⟨v, hv⟩ := Option.isSome_iff_exists.1 hsome
      refine Table.isSome_get?_ofList (v := v) (List.mem_filterMap.2 ⟨x, ?_, ?_⟩)
      · exact hblock ▸ hx
      · rw [hv]
        rfl
  | leave _ => exact absurd (by simp [isFinished]) hfin
  | kill => exact absurd (by simp [isFinished]) hfin

/-- A step leads a lane that has what it reads to a place where it has, too, or it ends the lane. -/
theorem step (he : p.Entry as f a) (h : l.Supplied p given lent f a) (hfin : ¬ l.isFinished)
    (hp : s.program = p) (has : s.analyses = as) (hshared : w.memory.PointsIn fun x => given x ∨ lent x)
    (hok : (l.step s w).result = .ok state) (hfin' : ¬ (l.step s w).lane.isFinished) :
    (l.step s w).lane.Supplied p given lent f a := by
  obtain ⟨i, hnext, hi, hplace⟩ := next_of_step he.enters h.sound.function hfin hp has hok
  have hrun : ¬ ((l.step s w).lane.place.isKilled ∨ (l.step s w).lane.place.isEnded) :=
    fun hstop => hfin' (isFinished_of_stop hstop)
  have hsound := h.sound.next he.targets he.describes.starts hi hplace hrun
  rw [← hp, ← has] at hnext
  have hresult : ∀ {x}, i.produces → i.result = some x → ((l.step s w).lane.value? x).isSome :=
    fun hproduces hx => isSome_result_of_step hfin hok hnext hproduces hx
  refine ⟨hsound, fun {x} hx => ?_, fun {x} hx hend => ?_, fun {x q} hq => ?_⟩
  · generalize hplace' : (l.step s w).lane.place = q at hplace hrun
    cases hplace with
    | within ht =>
        have hinstr : (l.step s w).lane.instr = l.instr + 1 := congrArg Place.instr hplace'
        rw [hinstr] at hx
        rcases hx.of_succ hi ht with ⟨j, hj, hproduces, hid⟩ | hx
        · cases hi.symm.trans hj
          exact hresult hproduces hid
        · exact isSome_value_of_step hfin hok (h.values hx)
    | jump c start ht hc hstart =>
        have hinstr : (l.step s w).lane.instr = start := congrArg Place.instr hplace'
        rw [hinstr] at hx
        refine isSome_value_of_step hfin hok (h.values ?_)
        exact hx.of_start he.describes.starts hstart hi ht (he.targets.linked hi ht hc)
    | stop _ hstop => exact absurd hstop hrun
  · obtain ⟨a', i', l₁, hnext', hframe, hconcludes⟩ := step_cases hfin hok
    cases hnext.symm.trans hnext'
    exact h.phis_of_concludes hi hframe hconcludes hfin' hx hend
  · obtain ⟨a', i', hnext', hdoes⟩ := does_of_step hfin hok
    cases hnext.symm.trans hnext'
    rcases hdoes.pointer_cases hq with hq | ⟨hid, ⟨hop, rfl⟩ | ⟨hop, src, q', hq', hbase⟩⟩
    · exact (h.pointers hq).imp (.imp_left (isSome_value_of_step hfin hok))
        (.imp_left (isSome_value_of_step hfin hok))
    · have hx := hresult (by simp [Instr.produces, hop]) hid
      exact ⟨.inl hx, .inl hx⟩
    · refine ⟨.inl (hresult (by simp [Instr.produces, hop]) hid), ?_⟩
      rw [hbase]
      exact (h.base_of_resolve hshared hq').imp_left (isSome_value_of_step hfin hok)

/-- A lane with the same frame and the same memory has what it reads, too. -/
theorem of_frame (h : l.Supplied p given lent f a) (hframe : l'.frame = l.frame)
    (hmemory : l'.memory = l.memory) : l'.Supplied p given lent f a := by
  have hinstr : l'.instr = l.instr := congrArg Place.instr (place_of_frame hframe)
  have hprevious : l'.frame.previousBlock = l.frame.previousBlock :=
    congrArg (fun k => k.previousBlock) hframe
  have hphis : l'.frame.phiValues = l.frame.phiValues := congrArg (fun k => k.phiValues) hframe
  refine ⟨place_of_frame hframe ▸ h.sound, fun {x} hx => ?_, fun {x} hx hend => ?_, fun {x q} hq => ?_⟩
  · rw [isSome_value_of_frame hframe]
    exact h.values (hinstr ▸ hx)
  · exact h.phis_of_eq hprevious hphis hx hend
  · simp only [isSome_value_of_frame hframe]
    rw [hmemory] at hq
    exact h.pointers hq

/-- Moving past markers, a lane has what it reads. -/
theorem skipNops (he : p.Entry as f a) (h : l.Supplied p given lent f a) :
    (l.skipNops p).Supplied p given lent f a := by
  refine ⟨sound_skipNops he h.sound, fun {x} hx => ?_, fun {x} hx hend => ?_, ?_⟩
  · rw [value_skipNops]
    rcases skipNops_cases he.enters h.sound.function with hplace | ⟨n, hn, hplace⟩
    · have hinstr : (l.skipNops p).instr = l.instr := congrArg Place.instr hplace
      exact h.values (hinstr ▸ hx)
    · have hinstr : (l.skipNops p).instr = l.instr + n := congrArg Place.instr hplace
      exact h.values ((hinstr ▸ hx : f.Available given (l.instr + n) x).of_skip hn)
  · exact h.phis_of_eq (previousBlock_skipNops l p) (phiValues_skipNops l p) hx hend
  · rw [value_skipNops, memory_skipNops]
    exact h.pointers

/-- Every operand of the lane's instruction has a value. -/
theorem isSome_of_operand (h : l.Supplied p given lent f a) (huse : f.DefinesBeforeUse given)
    (hi : f.instrs[l.instr]? = some i) (hop : i.op ≠ .phi) (hx : .ref x ∈ i.args) : (l.value? x).isSome :=
  h.values (huse.operand hi hop hx)

/-- The instruction of a lane that has what it reads misses nothing of the lane's own, but what was pointed
    at from the start. -/
theorem of_misses (h : l.Supplied p given lent f a) (huse : f.DefinesBeforeUse given)
    (hphis : ∀ {i}, i ∈ f.instrs → i.op = .phi → ∀ {b id},
      Lane.phiOperand b i.args = .ok (some (.ref id)) → id ∈ a.phiReadsOf b)
    {shared : Memory} (hshared : shared.PointsIn fun x => given x ∨ lent x) (hi : f.instrs[l.instr]? = some i)
    (hmisses : s.Misses i l.advanced shared x) :
    s.host.Answers (.unassignedRead x) ∨ lent x ∨ ∃ op, i.intrinsic? = some op ∧
      op.takesDerivatives ∧ l.advanced.LacksAround i (s.groupWith l.advanced) x := by
  have hno : ∀ {x}, (l.value? x).isSome → l.value? x ≠ none := fun hsome hnone => by
    rw [hnone] at hsome
    cases hsome
  cases hmisses with
  | operand hop hlacks => exact absurd hlacks.value (hno (h.isSome_of_operand huse hi hop hlacks.arg))
  | phi hop hread hnone =>
      have hmem := hphis (Array.mem_of_getElem? hi) hop hread
      have hsome := h.phis hmem (huse.phi hi hop hread)
      have hnone : l.phiValues.get? x = none := hnone
      rw [hnone] at hsome
      cases hsome
  | base source q hq hid hnone =>
      have hq : l.resolve shared source = .ok q := hq
      subst hid
      exact (h.base_of_resolve hshared hq).elim (fun hsome => absurd hnone (hno hsome)) fun hlent =>
        .inr (.inl hlent)
  | around op hop hderives hlacks => exact .inr (.inr ⟨op, hop, hderives, hlacks⟩)
  | answer hanswers => exact .inl hanswers

end Supplied

theorem previousBlock_of_enter (h : l.enter p b as liveGlobals = (.ok (), l')) :
    l'.previousBlock = noBlock := by
  obtain ⟨a, l₁, -, -, rfl⟩ := eq_of_enter h
  rw [previousBlock_skipNops]
  rfl

theorem isSome_boundBy_of_isSome (gs : List GlobalVar) {before : Option Variable} (h : before.isSome) :
    (boundBy gs x before).isSome := by
  induction gs generalizing before with
  | nil => exact h
  | cons g gs ih =>
      rw [boundBy, List.foldl_cons]
      refine ih ?_
      split
      · rfl
      · exact h

theorem isSome_boundBy {gs : List GlobalVar} (hx : x ∈ gs.map (·.id)) (before : Option Variable) :
    (boundBy gs x before).isSome := by
  induction gs generalizing before with
  | nil => cases hx
  | cons g gs ih =>
      rw [boundBy, List.foldl_cons]
      rcases List.mem_cons.1 hx with rfl | hx
      · rw [if_pos rfl]
        exact isSome_boundBy_of_isSome gs rfl
      · exact ih hx _

/-- A lane that has entered the program has what it reads: global variables. -/
theorem supplied_of_enter {index : Nat} {init : LaneInit} (he : p.Entry as f a)
    (hphis : a.phiReadsOf noBlock = [])
    (h : (Lane.new index p init).enter p b as liveGlobals = (.ok (), l)) :
    l.Supplied p (· ∈ b.globals.map (·.id)) lent f a := by
  have hprevious := previousBlock_of_enter h
  have hvalue := value_of_enter h
  have hmemory := (memory_of_enter h).2
  obtain ⟨a', l₁, ha', rfl, hplace⟩ := place_of_enter h
  obtain rfl : a = a' := Option.some.inj (he.analysis.symm.trans ha')
  rw [previousBlock_skipNops] at hprevious
  rw [value_skipNops] at hvalue
  rw [memory_skipNops] at hmemory
  refine Supplied.skipNops he ⟨?_, fun {x} hx => ?_, fun {x} hx _ => ?_, fun {x q} hq => ?_⟩
  · rw [hplace]
    exact ⟨rfl, rfl, rfl, .refl⟩
  · have hinstr : l₁.instr = 0 := congrArg Place.instr hplace
    rw [hvalue]
    exact isSome_boundBy (hinstr ▸ hx : f.Available _ 0 x).of_zero _
  · rw [hprevious, hphis] at hx
    cases hx
  · rw [hmemory] at hq
    cases hq

end Lane

namespace Session

/-- Every lane of a session that is not finished has what it reads, and the pointers of the shared memory
    are those of what is given or was pointed at from the start. -/
structure Supplied (p : Program) (given lent : Id → Prop) (f : Function) (a : FunctionAnalysis)
    (s : Session) : Prop where
  program : s.program = p
  entry : p.Entry s.analyses f a
  lanes : ∀ {l}, l ∈ s.lanes → ¬ l.isFinished → l.Supplied p given lent f a
  shared : s.world.memory.PointsIn fun x => given x ∨ lent x

variable {p : Program} {b : Bindings} {w : World} {inits : List LaneInit} {active : Nat} {config : Config}
  {given lent : Id → Prop} {f : Function} {a : FunctionAnalysis} {s₀ s t : Session} {host : Host}
  {states : List StepState}

namespace Supplied

theorem stepLane {index : Nat} (h : t.Supplied p given lent f a)
    (hok : (t.stepLane host index).result = .ok states) :
    (t.stepLane host index).session.Supplied p given lent f a := by
  cases hl : t.lanes[index]? with
  | none =>
      rwa [stepLane_of_none hl]
  | some l =>
      obtain ⟨state, hstep, hsession, -⟩ := stepLane_ok hl hok
      have hmem := List.mem_of_getElem? hl
      rw [hsession]
      by_cases hfin : l.isFinished
      -- a lane that has finished leaves all as it was
      · have hsame : (l.step (t.setting host index) t.world).lane = l ∧
            (l.step (t.setting host index) t.world).world = t.world := by
          rw [Lane.step, if_pos hfin]
          exact ⟨rfl, rfl⟩
        refine ⟨h.program, h.entry, fun {l'} hl' hfin' => ?_, ?_⟩
        · rcases List.mem_or_eq_of_mem_set hl' with hl' | rfl
          · exact h.lanes hl' hfin'
          · rw [hsame.1] at hfin'
            exact absurd hfin hfin'
        · show (l.step (t.setting host index) t.world).world.memory.PointsIn _
          rw [hsame.2]
          exact h.shared
      · have hsupplied := h.lanes hmem hfin
        refine ⟨h.program, h.entry, fun {l'} hl' hfin' => ?_, ?_⟩
        · rcases List.mem_or_eq_of_mem_set hl' with hl' | rfl
          · exact h.lanes hl' hfin'
          · exact hsupplied.step h.entry hfin h.program rfl h.shared hstep hfin'
        · obtain ⟨-, i, -, hdoes⟩ := Lane.does_of_step hfin hstep
          have hpointers := hdoes.reaches.pointers_eq
          intro x q hq
          exact h.shared ((congrArg (·.get? x) hpointers).symm.trans hq)

theorem stepLanes {index : Nat} {mask : List Bool} (h : s.Supplied p given lent f a)
    (hok : (s.stepLanes host index mask).result = .ok states) :
    (s.stepLanes host index mask).session.Supplied p given lent f a :=
  stepLanes_induction h (fun _ _ _ ht hok => ht.stepLane hok) hok

theorem round (h : s.Supplied p given lent f a) (hok : (s.round host).result = .ok states) :
    (s.round host).session.Supplied p given lent f a := by
  obtain ⟨hstepped, hrefreshed, hsession⟩ := round_ok hok
  have hsupplied := h.stepLanes hstepped
  have hby := (lanesBy_refresh hrefreshed).trans (lanesBy_skipNops s.mask)
    (T := fun _ l l' => ¬ l'.isFinished → ¬ l.isFinished ∧
      (l.Supplied p given lent f a → l'.Supplied p given lent f a)) fun j l l₁ l' _ h₁ h₂ => by
      have hfin₁ := Lane.isFinished_of_place (Lane.place_of_frame h₁.frame_eq)
      have hkept : l.Supplied p given lent f a → l₁.Supplied p given lent f a :=
        fun hl => hl.of_frame h₁.frame_eq (Lane.Refreshing.memory_eq h₁)
      rw [h₂, refresh_session, hsupplied.program, ← hfin₁]
      split
      · rw [Lane.isFinished_skipNops]
        exact fun hfin => ⟨hfin, fun hl => (hkept hl).skipNops h.entry⟩
      · exact fun hfin => ⟨hfin, hkept⟩
  rw [hsession]
  refine ⟨hby.program.trans hsupplied.program, hby.analyses ▸ hsupplied.entry, fun {l'} hl' hfin' => ?_, ?_⟩
  · obtain ⟨j, hj⟩ := List.getElem?_of_mem hl'
    obtain ⟨l, hl, hkept⟩ := hby.lane j _ hj
    obtain ⟨hfin, hkept⟩ := hkept hfin'
    exact hkept (hsupplied.lanes (List.mem_of_getElem? hl) hfin)
  · rw [skipNops, refresh_session]
    exact hsupplied.shared

end Supplied

/-- A new session has the global variables of the program beside those that were set up before it, and
    pointers to the former beside those that there were before. -/
theorem given_of_new (hnew : Session.new p b w inits active config = .ok s) :
    (∀ x, x ∈ s.bindings.globals.map (·.id) ↔ p.IsGlobal x ∨ x ∈ b.globals.map (·.id)) ∧
      s.world.memory.PointsIn fun x => p.IsGlobal x ∨ w.memory.PointsAt x := by
  obtain ⟨-, analyses, bindings, live, world, -, hglobals, rfl⟩ := new_ok hnew
  obtain ⟨hpointers, -, hids⟩ := pointers_of_allocateGlobals hglobals
  refine ⟨fun x => ?_, fun {x q} hq => ?_⟩
  · dsimp only
    rw [hids, List.mem_append, or_comm, List.mem_map]
    rfl
  · rcases hpointers hq with ⟨hx, hbase⟩ | hq
    · exact ⟨.inl hx, .inl (hbase ▸ hx)⟩
    · exact (w.memory.pointsIn_self hq).imp .inr .inr

/-- Between two rounds every lane that is not finished has what it reads. What is given are the global
    variables, those of the program and those that were set up before it, and only the memory that the
    session was made with pointed at others. -/
theorem supplied_of_reached (hnew : Session.new p b w inits active config = .ok s₀)
    (he : p.Entry s₀.analyses f a) (hphis : a.phiReadsOf Lane.noBlock = []) (hs : s₀.Reached s) :
    s.Supplied p (fun x => p.IsGlobal x ∨ x ∈ b.globals.map (·.id)) w.memory.PointsAt f a := by
  have hfresh := fresh_of_new hnew
  obtain ⟨hgiven, hshared⟩ := given_of_new hnew
  induction hs with
  | started hok =>
      have hby := lanesBy_start hok
      refine ⟨hby.program.trans hfresh.program, hby.analyses ▸ he, fun {l'} hl' _ => ?_, ?_⟩
      · obtain ⟨index, init, henter⟩ := hfresh.enter_of_start hok hl'
        have hsupplied : l'.Supplied p (· ∈ s₀.bindings.globals.map (·.id)) w.memory.PointsAt f a :=
          Lane.supplied_of_enter he hphis henter
        rwa [funext fun x => propext (hgiven x)] at hsupplied
      · rw [(start_ok hok).1]
        exact fun hq => (hshared hq).imp (.imp_left .inl) (.imp_left .inl)
  | round _ hok ih => exact ih.round hok

end Session

end Lockstep
