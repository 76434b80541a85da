import Lockstep.Proofs.Lane.Assign
import Lockstep.Proofs.Session.Rounds
import Lockstep.Proofs.Typing.Value

set_option autoImplicit false

/-! # Components of signatures

To read a component of an input element, or to write one of an output element, never fails where the element has
the component. What is read is what the component was set to, and what is written changes nothing but the component
(`Lane.signature_components`); but only sixteen components can be set, however many the element has
(`Lane.copyComponents_loses_last_row`). -/

namespace Lockstep

namespace Step

variable {s : Setting} {i : Instr}

theorem on_loadInput (m : Machine) : (intrinsic s i .loadInput).on m = (m.lane.loadInput i, m) :=
  on_intrinsic_of_effect rfl rfl rfl rfl (on_lift ..)

theorem on_storeOutput (m : Machine) : (intrinsic s i .storeOutput).on m = (m.lane.storeOutput i s.recording, m) :=
  on_intrinsic_of_effect rfl rfl rfl rfl (on_lift ..)

end Step

/-- A component that was set has the bits, if it is one of the sixteen that there can be. -/
theorem Variable.get_set (v : Variable) (c : Nat) (bits : UInt64) :
    (v.set c bits).get c = if c < 16 then bits else 0 := by
  split
  · next hc => exact Value.get_set_self _ hc _
  · next hc => exact Variable.get_of_ge _ (Nat.le_of_not_lt hc)

/-- To set a component to what it is changes nothing. -/
theorem Variable.set_get (v : Variable) (c : Nat) : v.set c (v.get c) = v := by
  have hcomps : v.value.comps.setIfInBounds c (v.value.get c) = v.value.comps := by
    refine Vector.ext fun j hj => ?_
    rw [Vector.getElem_setIfInBounds]
    split
    · next hcj =>
        subst hcj
        rw [Value.get, Vector.getElem?_eq_getElem hj]
        rfl
    · rfl
  cases v
  exact congrArg (fun comps => Variable.mk _ _ _ _ ⟨comps⟩ _ _) hcomps

namespace Lane

/-- The first three operands of an instruction are the place of a component of a member: the number of the member,
    the row and the column. The component's number is given. -/
structure Locates (l : Lane) (i : Instr) (v : Variable) (k : Nat) (e : Variable) (c : Nat) : Prop where
  element : l.argNat i 0 = .ok k
  member : v.members[k]? = some e
  position : ∃ row column, l.argNat i 1 = .ok row ∧ l.argNat i 2 = .ok column ∧
    row < max e.rows.toNat 1 ∧ column < e.columns.toNat ∧ c = row * e.columns.toNat + column

variable {l : Lane} {i : Instr} {v e : Variable} {k c : Nat} {s : Setting} {w : World} {id : Id} {a : FunctionAnalysis}

theorem Locates.signatureComponent (h : l.Locates i v k e c) (side : SignatureSide) :
    ∃ row column, l.argNat i 1 = .ok row ∧ l.argNat i 2 = .ok column ∧
      signatureComponent side v k row column = .ok (e, c) := by
  obtain ⟨row, column, hrow, hcolumn, hrowlt, hcolumnlt, rfl⟩ := h.position
  refine ⟨row, column, hrow, hcolumn, ?_⟩
  unfold Lane.signatureComponent Variable.componentAt?
  rw [h.member]
  dsimp only
  rw [if_pos ⟨hrowlt, hcolumnlt⟩]

/-- To read a component gives its bits, cut to the width of the result. -/
theorem step_of_loadInput (h : l.AboutTo s.program s.analyses i id) (hop : i.intrinsic? = some .loadInput)
    (hlocates : l.Locates i l.input k e c) :
    (∃ state, (l.step s w).result = .ok state) ∧ (l.step s w).world = w ∧
      ∃ r : Variable, (l.step s w).lane.value? = Function.update l.value? id (some r) ∧ r.elem = i.ty.elem ∧
        r.get 0 = e.get c &&& mask i.ty.elem.bits := by
  let result := (Variable.zeroed (i.resultName id) i.ty).setIntComp 0 (e.get c)
  obtain ⟨row, column, hrow, hcolumn, hcomponent⟩ := hlocates.signatureComponent .input
  have hload : l.advanced.loadInput i = .ok (.value id result) := by
    unfold loadInput
    rw [h.blank, show l.advanced.argNat i 0 = .ok k from hlocates.element,
      show l.advanced.argNat i 1 = .ok row from hrow, show l.advanced.argNat i 2 = .ok column from hcolumn]
    show (Lane.signatureComponent .input l.input k row column >>= _ : Except Fault Effect) = _
    rw [hcomponent]
    rfl
  have hon : (Step.intrinsic s i .loadInput).on { lane := l.advanced, world := w } =
      (.ok (.assign id result true), { lane := l.advanced, world := w }) := by
    rw [Step.on_loadInput, hload]
    rfl
  obtain ⟨hok, hworld, hvalue⟩ := step_of_intrinsic h.running h.next hop rfl hon h.place
  refine ⟨hok, hworld, result, hvalue, Variable.elem_zeroed _ _, ?_⟩
  show (Value.set _ _ _).get 0 = _
  rw [Value.get_set_self _ (by decide), Variable.elem_zeroed]

/-- To write a component sets it to the low bits of the value, of the width of the element, in the lane that is
    reported. -/
theorem step_of_storeOutput (hfin : ¬ l.isFinished) (hnext : l.nextInstr s.program s.analyses = .ok (a, i))
    (hop : i.intrinsic? = some .storeOutput) (hrecording : s.recording) (hlocates : l.Locates i l.output k e c)
    (hvalue : l.arg i 3 = .ok v) :
    (∃ state, (l.step s w).result = .ok state) ∧ (l.step s w).world = w ∧
      (l.step s w).lane.value? = Function.update l.value? l.outputId
        (some { l.output with members := l.output.members.set k (e.setIntComp c (v.get 0)) }) := by
  obtain ⟨row, column, hrow, hcolumn, hcomponent⟩ := hlocates.signatureComponent .output
  have hstore : l.advanced.storeOutput i s.recording = .ok (.value l.outputId
      { l.output with members := l.output.members.set k (e.setIntComp c (v.get 0)) }) := by
    unfold storeOutput
    rw [show l.advanced.argNat i 0 = .ok k from hlocates.element, show l.advanced.argNat i 1 = .ok row from hrow,
      show l.advanced.argNat i 2 = .ok column from hcolumn, show l.advanced.arg i 3 = .ok v from hvalue, hrecording]
    show (Lane.signatureComponent .output l.output k row column >>= _ : Except Fault Effect) = _
    rw [hcomponent]
    rfl
  have hon : (Step.intrinsic s i .storeOutput).on { lane := l.advanced, world := w } =
      (.ok (.assign l.outputId { l.output with members := l.output.members.set k (e.setIntComp c (v.get 0)) } true),
        { lane := l.advanced, world := w }) := by
    rw [Step.on_storeOutput, hstore]
    rfl
  exact step_of_intrinsic hfin ⟨a, hnext⟩ hop rfl hon (by simp [hasPlace, outputId, advanced])

/-- A component that was set to some bits is read as these bits, cut to the width of the result. A component that the
    reported lane writes has then the low bits of the value, and no other component of the element and no other element
    changes. But from the seventeenth component on, what is set or written is dropped, and zero is read. -/
theorem signature_components :
    (∀ {id : Id} {x : UInt64}, l.AboutTo s.program s.analyses i id → i.intrinsic? = some .loadInput →
      l.Locates i l.input k (e.set c x) c →
        (∃ state, (l.step s w).result = .ok state) ∧ (l.step s w).world = w ∧
        ∃ r : Variable, (l.step s w).lane.value? = Function.update l.value? id (some r) ∧ r.elem = i.ty.elem ∧
          r.get 0 = (if c < 16 then x else 0) &&& mask i.ty.elem.bits) ∧
    ∀ {a : FunctionAnalysis} {v : Variable},
      ¬ l.isFinished → l.nextInstr s.program s.analyses = .ok (a, i) → i.intrinsic? = some .storeOutput →
      s.recording → l.Locates i l.output k e c → l.arg i 3 = .ok v →
        (∃ state, (l.step s w).result = .ok state) ∧ (l.step s w).world = w ∧
        ∃ out e' : Variable, (l.step s w).lane.value? = Function.update l.value? l.outputId (some out) ∧
          out = { l.output with members := out.members } ∧ (∀ j ≠ k, out.members[j]? = l.output.members[j]?) ∧
          out.members[k]? = some e' ∧ e' = { e with value := e'.value } ∧
          e'.get c = (if c < 16 then v.get 0 &&& mask e.elem.bits else 0) ∧ ∀ d ≠ c, e'.get d = e.get d := by
  refine ⟨fun habout hop hlocates => ?_, fun hfin hnext hop hrecording hlocates hvalue => ?_⟩
  · rw [← Variable.get_set]
    exact step_of_loadInput habout hop hlocates
  · obtain ⟨hok, hworld, hassigned⟩ := step_of_storeOutput (w := w) hfin hnext hop hrecording hlocates hvalue
    have hk : k < l.output.members.length := (List.getElem?_eq_some_iff.1 hlocates.member).1
    exact ⟨hok, hworld, _, e.setIntComp c _, hassigned, rfl, fun j hj => List.getElem?_set_ne hj.symm,
      List.getElem?_set_self hk, rfl, Variable.get_set .., fun d hd => Value.get_set_of_ne _ hd _⟩

/-- An element of five rows of four numbers. -/
def fiveRows : Variable := { name := "rows", elem := .sInt, rows := 5, columns := 4 }

/-- Reads a component of the first element. -/
def reads (id row column : Nat) : Instr :=
  { op := .call, callee := some (.intrinsic .loadInput), ty := .scalar .int 32, result := some ⟨id⟩,
    args := [.const (.int 32 0), .const (.int 32 row.toUInt64), .const (.int 8 column.toUInt64)] }

/-- Writes a number to a component of the first element. -/
def writes (row column value : Nat) : Instr :=
  { op := .call, callee := some (.intrinsic .storeOutput),
    args := [.const (.int 32 0), .const (.int 32 row.toUInt64), .const (.int 8 column.toUInt64),
      .const (.int 32 value.toUInt64)] }

/-- Reads the seventh component and writes the eighth, then reads and writes the first of the last row. -/
def copyComponents : Program :=
  { stage := .vertex
    functions := #[{
      name := "copyComponents"
      blocks := #[{}]
      instrs := #[reads 0 1 2, writes 1 3 9, reads 1 4 0, writes 4 0 7, { op := .ret }] }]
    outputs := [{ name := "rows", elem := .sInt, rows := 5, columns := 4 }]
    idCount := 2 }

set_option synthInstance.maxSize 512 in
/-- The seventh component is read as it was set, and the eighth is written. -/
theorem copyComponents_below_sixteen :
    ∃ (s₀ s s₁ : Session) (l l₁ : Lane) (r out e : Variable),
      Session.new copyComponents {} {} [{ input := .aggregate "in" [fiveRows.set 6 7] }] 0 {} = .ok s₀ ∧
      s₀.start.session = s ∧ s.lanes[0]? = some l ∧
      (l.step (s.setting .unbound 0) s.world).lane.value? ⟨0⟩ = some r ∧ r.get 0 = 7 ∧
      s.advance .unbound 1 = .ok s₁ ∧ s₁.lanes[0]? = some l₁ ∧
      (l₁.step (s₁.setting .unbound 0) s₁.world).lane.value? l₁.outputId = some out ∧
      out.members[0]? = some e ∧ e.get 7 = 9 := by
  have hread : ∃ s₀, Session.new copyComponents {} {} [{ input := .aggregate "in" [fiveRows.set 6 7] }] 0 {} = .ok s₀ ∧
      ∃ l, s₀.start.session.lanes[0]? = some l ∧ (¬ l.isFinished ∧ l.hasPlace ⟨0⟩) ∧
      ∃ next, l.nextInstr s₀.start.session.program s₀.start.session.analyses = .ok next ∧
      (next.2.result = some ⟨0⟩ ∧ next.2.intrinsic? = some .loadInput ∧ next.2.ty.elem = .sInt) ∧
      (∃ k, l.argNat next.2 0 = .ok k ∧ k = 0) ∧ (∃ row, l.argNat next.2 1 = .ok row ∧ row = 1) ∧
      (∃ column, l.argNat next.2 2 = .ok column ∧ column = 2) ∧
      ∃ e, l.input.members[0]? = some e ∧ (e.rows = 5 ∧ e.columns = 4 ∧ e.get 6 = 7) := by
    decide +kernel
  have hwrite : ∃ s₀, Session.new copyComponents {} {} [{ input := .aggregate "in" [fiveRows.set 6 7] }] 0 {} = .ok s₀ ∧
      ∃ s₁, s₀.start.session.advance .unbound 1 = .ok s₁ ∧ ∃ l, s₁.lanes[0]? = some l ∧
      (¬ l.isFinished ∧ (s₁.setting .unbound 0).recording) ∧
      ∃ next, l.nextInstr s₁.program s₁.analyses = .ok next ∧ next.2.intrinsic? = some .storeOutput ∧
      (∃ k, l.argNat next.2 0 = .ok k ∧ k = 0) ∧ (∃ row, l.argNat next.2 1 = .ok row ∧ row = 1) ∧
      (∃ column, l.argNat next.2 2 = .ok column ∧ column = 3) ∧ (∃ v, l.arg next.2 3 = .ok v ∧ v.get 0 = 9) ∧
      ∃ e, l.output.members[0]? = some e ∧ (e.rows = 5 ∧ e.columns = 4 ∧ e.elem = .sInt) := by
    decide +kernel
  obtain ⟨s₀, hnew, l, hl, ⟨hfin, hplace⟩, next, hnext, ⟨hid, hop, helem⟩, ⟨_, hk, rfl⟩, ⟨_, hrow, rfl⟩,
    ⟨_, hcolumn, rfl⟩, e, he, hrows, hcolumns, hget⟩ := hread
  obtain ⟨s₀', hnew', s₁, hs₁, l₁, hl₁, ⟨hfin₁, hrecording⟩, next₁, hnext₁, hop₁, ⟨_, hk₁, rfl⟩, ⟨_, hrow₁, rfl⟩,
    ⟨_, hcolumn₁, rfl⟩, ⟨v, hv, hnine⟩, e₁, he₁, hrows₁, hcolumns₁, helem₁⟩ := hwrite
  cases hnew.symm.trans hnew'
  rw [← e.set_get 6, hget] at he
  have hlocates : l.Locates next.2 l.input 0 (e.set 6 7) 6 :=
    ⟨hk, he, 1, 2, hrow, hcolumn, by rw [show (e.set 6 7).rows = 5 from hrows]; decide, by
      rw [show (e.set 6 7).columns = 4 from hcolumns]; decide, by rw [show (e.set 6 7).columns = 4 from hcolumns]; rfl⟩
  have hlocates₁ : l₁.Locates next₁.2 l₁.output 0 e₁ 7 :=
    ⟨hk₁, he₁, 1, 3, hrow₁, hcolumn₁, by rw [hrows₁]; decide, by rw [hcolumns₁]; decide, by rw [hcolumns₁]; rfl⟩
  obtain ⟨-, -, r, hr, -, hseven⟩ := (signature_components (s := s₀.start.session.setting .unbound 0)
    (w := s₀.start.session.world)).1 ⟨hfin, ⟨next.1, hnext⟩, hid, hplace⟩ hop hlocates
  obtain ⟨-, -, out, e', hout, -, -, he', -, hwritten, -⟩ := (signature_components (s := s₁.setting .unbound 0)
    (w := s₁.world)).2 hfin₁ hnext₁ hop₁ hrecording hlocates₁ hv
  refine ⟨s₀, _, s₁, l, l₁, r, out, e', hnew, rfl, hl, by rw [hr, Function.update_self], ?_, hs₁, hl₁,
    by rw [hout, Function.update_self], he', ?_⟩
  · rw [hseven, helem]
    decide
  · rw [hwritten, hnine, helem₁]
    decide

set_option synthInstance.maxSize 512 in
/-- The seventeenth component, the first of the last row, is read as zero after it was set, and stays zero when seven
    is written to it. -/
theorem copyComponents_loses_last_row :
    ∃ s₀, Session.new copyComponents {} {} [{ input := .aggregate "in" [fiveRows.set 16 7] }] 0 {} = .ok s₀ ∧
      (∃ s, s₀.start.session.advance .unbound 2 = .ok s ∧ ∃ l, s.lanes[0]? = some l ∧
        (∃ next, l.nextInstr s.program s.analyses = .ok next ∧ next.2.intrinsic? = some .loadInput ∧
          (∃ row, l.argNat next.2 1 = .ok row ∧ row = 4) ∧ (∃ column, l.argNat next.2 2 = .ok column ∧ column = 0) ∧
          ∃ k, l.argNat next.2 0 = .ok k ∧ ∃ e, l.input.members[k]? = some e ∧ (e.rows = 5 ∧ e.columns = 4)) ∧
        ∃ r, (l.step (s.setting .unbound 0) s.world).lane.value? ⟨1⟩ = some r ∧ r.get 0 = 0) ∧
      ∃ s, s₀.start.session.advance .unbound 3 = .ok s ∧ ∃ l, s.lanes[0]? = some l ∧
      (∃ next, l.nextInstr s.program s.analyses = .ok next ∧ next.2.intrinsic? = some .storeOutput ∧
        (∃ row, l.argNat next.2 1 = .ok row ∧ row = 4) ∧ (∃ column, l.argNat next.2 2 = .ok column ∧ column = 0) ∧
        ∃ v, l.arg next.2 3 = .ok v ∧ v.get 0 = 7) ∧
      ∃ out, (l.step (s.setting .unbound 0) s.world).lane.value? l.outputId = some out ∧
        ∃ e, out.members[0]? = some e ∧ (e.rows = 5 ∧ e.columns = 4 ∧ e.get 16 = 0) := by
  decide +kernel

end Lane

end Lockstep
