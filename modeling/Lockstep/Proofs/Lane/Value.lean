import Lockstep.Proofs.Lane.Holdings

set_option autoImplicit false

/-! # Steps that assign a value

An instruction that gives a value and leaves the machine as it is makes the lane take that value as its result
(`Lane.AboutTo.step`): no other identifier changes, and no resource. -/

namespace Lockstep

namespace Step

variable {s : Setting} {a : FunctionAnalysis} {i : Instr} {m : Machine}

/-- What ends a block computes nothing. -/
theorem not_isTerminator_of_compute {e : Effect} {m' : Machine} (h : (compute s i).on m = (.ok e, m')) :
    ¬ i.isTerminator := by
  intro hi
  unfold Instr.isTerminator at hi
  unfold compute at h
  cases hop : i.op <;> rw [hop] at h hi <;> first | (cases hi; done) | cases h

theorem on_instruction_of_compute {e : Effect} {m' : Machine} (h : (compute s i).on m = (.ok e, m')) :
    (instruction s i).on m = (.ok (.effect e), m') := by
  unfold instruction
  rw [if_neg (not_isTerminator_of_compute h), on_bind, h]
  rfl

theorem compute_of_instruction {o : Outcome} {m' : Machine} (hi : ¬ i.isTerminator)
    (h : (instruction s i).on m = (.ok o, m')) : ∃ e, o = .effect e ∧ (compute s i).on m = (.ok e, m') := by
  unfold instruction at h
  rw [if_neg hi] at h
  obtain ⟨e, m₁, he, h⟩ := ok_of_on_bind h
  cases h
  exact ⟨e, rfl, he⟩

/-- To assign a result that has a place always succeeds. -/
theorem on_assign {id : Id} {v : Variable} (h : m.lane.hasPlace id) :
    (assign i id v true).on m = (.ok (), { m with
      lane := (m.lane.assign id (i.assigned v)).bringIntoScope id
      events := if (i.assigned v).hasNonFinite then m.events.union .generatedNonFinite else m.events
      changes := m.changes.push (m.lane.assignment id (i.assigned v)) }) := by
  unfold assign
  rw [on_bind]
  show Step.on (if !m.lane.hasPlace id then _ else _) m = _
  rw [if_neg (by simp [h])]
  show Step.on (announce id (i.assigned v) >>= _) m = _
  rw [on_bind, on_announce]
  rfl

end Step

namespace Lane

variable {l : Lane} {a : FunctionAnalysis} {i : Instr} {id : Id} {v : Variable}

/-- The lane after a step that assigns a value. -/
def taking (l : Lane) (a : FunctionAnalysis) (id : Id) (v : Variable) : Lane :=
  ((l.advanced.retire a (some id)).assign id v).bringIntoScope id

theorem taking_eq (l : Lane) (a : FunctionAnalysis) (id : Id) (v : Variable) :
    ∃ cells input output, l.taking a id v = { l.advanced with cells, input, output } := by
  obtain ⟨_, _, _, -, h⟩ := assign_eq (l.advanced.retire a (some id)) id v
  unfold taking
  rw [h]
  exact ⟨_, _, _, rfl⟩

theorem place_taking : (l.taking a id v).place = l.advanced.place := by
  unfold taking
  rw [place_bringIntoScope, place_assign, place_retire]

theorem position_taking : (l.taking a id v).position = l.position :=
  Prod.ext (congrArg Place.block place_taking) (congrArg Place.activeInstr place_taking)

theorem value_taking (h : l.hasPlace id) :
    (l.taking a id v).value? = Function.update l.value? id (some v) := by
  have hplace : (l.advanced.retire a (some id)).hasPlace id := by
    simpa [hasPlace, retire, advanced] using h
  unfold taking
  rw [value_bringIntoScope, value_assign hplace, value_retire]
  rfl

/-- The step of a lane whose instruction computes a value assigns it. The state that it reports does
    not depend on anything else that the instruction may have read. -/
theorem step_of_value (hfin : ¬ l.isFinished) (hplace : l.hasPlace id) :
    ∃ state, ∀ (s : Setting) (w : World), l.nextInstr s.program s.analyses = .ok (a, i) →
      (Step.instruction s i).on { lane := l.advanced, world := w } =
        (.ok (.effect (.value id v)), { lane := l.advanced, world := w }) →
      l.step s w = { lane := l.taking a id (i.assigned v), world := w, result := .ok state } := by
  have hplace' : (l.advanced.retire a (some id)).hasPlace id := by
    simpa [hasPlace, retire, advanced] using hplace
  -- what is left of the machine but for the world
  let m : Machine := ((Step.assign i id v true).on
    ((Step.retire a (some id)).on { lane := l.advanced, world := {} }).2).2
  refine ⟨m.state l.globalInstr, fun s w hnext hinstruction => ?_⟩
  have hexecute : (Step.execute s).on { lane := l, world := w } = (.ok (), { m with world := w }) := by
    rw [Step.on_execute (m := { lane := l, world := w }) hnext, Step.on_bind, hinstruction]
    show (Step.retire a (some id) >>= fun _ => Step.assign i id v true).on _ = _
    simp only [m, Step.on_bind, Step.on_retire]
    rw [Step.on_assign hplace', Step.on_assign hplace']
  have hlane : m.lane = l.taking a id (i.assigned v) := by
    simp only [m, Step.on_retire]
    rw [Step.on_assign hplace']
    rfl
  rw [step_of_execute hfin hexecute, ← hlane]
  rfl

/-- The step of a lane succeeds, leaves the world as it is, and changes one variable, to a value with a property. -/
def Gives (l : Lane) (s : Setting) (w : World) (id : Id) (P : Variable → Prop) : Prop :=
  (∃ state, (l.step s w).result = .ok state) ∧ (l.step s w).world = w ∧
    ∃ r, (l.step s w).lane.value? = Function.update l.value? id (some r) ∧ P r

theorem Gives.mono {s : Setting} {w : World} {P Q : Variable → Prop} (h : l.Gives s w id P) (hPQ : ∀ r, P r → Q r) :
    l.Gives s w id Q :=
  ⟨h.1, h.2.1, h.2.2.imp fun r hr => ⟨hr.1, hPQ r hr.2⟩⟩

/-- The lane is about to execute an instruction whose result is an identifier that it has a place for. -/
structure AboutTo (l : Lane) (p : Program) (as : Analyses) (i : Instr) (id : Id) : Prop where
  running : ¬ l.isFinished
  next : ∃ a, l.nextInstr p as = .ok (a, i)
  result : i.result = some id
  place : l.hasPlace id

namespace AboutTo

variable {s : Setting} {w : World}

theorem of_place {p : Program} {as : Analyses} {f : Function} (hl : ¬ l.isFinished ∧ l.hasPlace id)
    (ha : (as.of? l.function).isSome) (hf : p.functions[l.function]? = some f) (hi : f.instrs[l.instr]? = some i)
    (hid : i.result = some id) : l.AboutTo p as i id := by
  obtain ⟨a, ha⟩ := Option.isSome_iff_exists.1 ha
  refine ⟨hl.1, ⟨a, ?_⟩, hid, hl.2⟩
  unfold nextInstr
  rw [ha, hf]
  dsimp only
  rw [hi]

/-- A place in a program that is known. -/
theorem of_program {p q : Program} {as : Analyses} {f k : Nat} (hp : p = q) (hl : ¬ l.isFinished ∧ l.hasPlace id)
    (ha : (as.of? l.function).isSome) (hf : l.function = f) (hk : l.instr = k)
    (hi : q.functions[f]?.bind (·.instrs[k]?) = some i) (hid : i.result = some id) : l.AboutTo p as i id := by
  subst hp hf hk
  obtain ⟨_, hf, hi⟩ := Option.bind_eq_some_iff.1 hi
  exact .of_place hl ha hf hi hid

theorem blank (h : l.AboutTo s.program s.analyses i id) :
    i.blank = .ok (id, .zeroed (i.resultName id) i.ty) := by
  rw [Instr.blank, Instr.resultId, h.result]
  rfl

theorem step_eq (h : l.AboutTo s.program s.analyses i id)
    (hcompute : (Step.compute s i).on { lane := l.advanced, world := w } =
      (.ok (.value id v), { lane := l.advanced, world := w })) :
    ∃ a state, l.step s w = { lane := l.taking a id (i.assigned v), world := w, result := .ok state } := by
  obtain ⟨a, hnext⟩ := h.next
  obtain ⟨state, hstep⟩ := step_of_value (a := a) (i := i) (v := v) h.running h.place
  exact ⟨a, state, hstep s w hnext (Step.on_instruction_of_compute hcompute)⟩

/-- The step of an instruction that changes its lane and computes a value. -/
theorem step_after (h : l.AboutTo s.program s.analyses i id) {m : Machine}
    (hcompute : (Step.compute s i).on { lane := l.advanced, world := w } = (.ok (.value id v), m))
    (hplace : m.lane.hasPlace id) :
    ∃ a, (∃ state, (l.step s w).result = .ok state) ∧ (l.step s w).world = m.world ∧
      (l.step s w).lane = ((m.lane.retire a (some id)).assign id (i.assigned v)).bringIntoScope id := by
  obtain ⟨a, hnext⟩ := h.next
  have hplace' : (m.lane.retire a (some id)).hasPlace id := by simpa [hasPlace, retire] using hplace
  let m' : Machine := ((Step.assign i id v true).on ((Step.retire a (some id)).on m).2).2
  have hexecute : (Step.execute s).on { lane := l, world := w } = (.ok (), m') := by
    rw [Step.on_execute (m := { lane := l, world := w }) hnext, Step.on_bind, Step.on_instruction_of_compute hcompute]
    show (Step.retire a (some id) >>= fun _ => Step.assign i id v true).on m = _
    simp only [m', Step.on_bind, Step.on_retire]
    rw [Step.on_assign hplace']
  refine ⟨a, ?_⟩
  rw [step_of_execute h.running hexecute]
  simp only [m', Step.on_retire]
  rw [Step.on_assign hplace']
  exact ⟨⟨_, rfl⟩, rfl, rfl⟩

/-- The step of an instruction that computes a value succeeds, and the lane takes the value. -/
theorem step (h : l.AboutTo s.program s.analyses i id)
    (hcompute : (Step.compute s i).on { lane := l.advanced, world := w } =
      (.ok (.value id v), { lane := l.advanced, world := w })) :
    (∃ state, (l.step s w).result = .ok state) ∧ (l.step s w).world = w ∧
      (l.step s w).lane.value? = Function.update l.value? id (some (i.assigned v)) := by
  obtain ⟨a, state, hstep⟩ := h.step_eq hcompute
  rw [hstep]
  exact ⟨⟨state, rfl⟩, rfl, value_taking h.place⟩

/-- The step of an instruction that fails to compute a value fails in the same way. -/
theorem step_of_error (h : l.AboutTo s.program s.analyses i id) (hi : ¬ i.isTerminator) {fault : Fault} {m : Machine}
    (hcompute : (Step.compute s i).on { lane := l.advanced, world := w } = (.error fault, m)) :
    (l.step s w).result = .error fault := by
  obtain ⟨a, hnext⟩ := h.next
  have hexecute := Step.on_execute (m := { lane := l, world := w }) hnext
  unfold Step.instruction at hexecute
  rw [if_neg hi, Step.on_bind, Step.on_bind, hcompute] at hexecute
  unfold Lane.step
  rw [if_neg h.running, hexecute]

end AboutTo

end Lane

end Lockstep
