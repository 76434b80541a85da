import Lockstep.Proofs.Lane.Degraded
import Lockstep.Proofs.Lane.Vector

set_option autoImplicit false

/-! # Rows of constant blocks

A register of a constant block is loaded as a row of components, each the word of its bytes; what is missing at the
end of the block reads as zero. Members of the result are taken from that row (`Lane.registers_read_back`). A row
has at most four components, so of eight numbers of two bytes only half can be taken
(`Lane.constantLoads_lacks_fifth_short`). -/

namespace Lockstep

namespace Bytes

/-- The word of `width` bytes at a position, where missing bytes count as zero. -/
def paddedWord (bs : Bytes) (start width : Nat) : UInt64 :=
  toWord ((List.range width).map fun j => bs[start + j]?.getD 0)

theorem paddedWord_succ (bs : Bytes) (start width : Nat) :
    paddedWord bs start (width + 1) = (bs[start]?.getD 0).toUInt64 ||| (paddedWord bs (start + 1) width <<< 8) := by
  unfold paddedWord
  rw [List.range_succ_eq_map, List.map_cons, List.map_map, toWord]
  refine congrArg (fun word => _ ||| (toWord word <<< 8)) (List.map_congr_left fun j _ => ?_)
  rw [Function.comp_apply, Nat.add_assoc, Nat.add_comm 1 j]

/-- The bytes that are there make the whole word. -/
theorem toWord_take_drop (bs : Bytes) (start width : Nat) :
    toWord ((bs.drop start).take width) = paddedWord bs start width := by
  induction width generalizing start with
  | zero => rfl
  | succ width ih =>
      rw [paddedWord_succ, ← ih]
      rcases Nat.lt_or_ge start bs.length with h | h
      · rw [List.drop_eq_getElem_cons h, List.take_succ_cons, toWord, List.getElem?_eq_getElem h]
        rfl
      · rw [List.drop_eq_nil_of_le h, List.drop_eq_nil_of_le (by omega), List.getElem?_eq_none h, List.take_nil,
          List.take_nil]
        rfl

theorem paddedWord_of_ge {bs : Bytes} {start : Nat} (h : bs.length ≤ start) (width : Nat) :
    paddedWord bs start width = 0 := by
  rw [← toWord_take_drop, List.drop_eq_nil_of_le h, List.take_nil]
  rfl

end Bytes

/-- A row of words that stand at consecutive positions from `start` on, each of `width` bytes. -/
structure Variable.IsRowOf (r : Variable) (t : ElemType) (columns : Nat) (data : Bytes) (start width : Nat) :
    Prop where
  elem : r.elem = t
  members : r.members = []
  compCount : r.compCount = columns
  word : ∀ c < columns, r.get c = data.paddedWord (start + c * width) width

/-- The bytes of the constant block that is bound to a slot, if there is one. -/
def Bindings.constants (b : Bindings) (slot : Slot) : Bytes := ((b.constantBlock? slot).map (·.data)).getD []

section

variable {name : String} {t : ElemType} {columns : Nat} {data : Bytes} {start width : Nat}

theorem Variable.isRowOf_fill (hcolumns : columns ≤ 4) {f : Nat → UInt64}
    (hf : ∀ c, f c = data.paddedWord (start + c * width) width) :
    ((row name t columns.toUInt8).fill f).IsRowOf t columns data start width := by
  have hcount : (row name t columns.toUInt8).compCount = columns := compCount_row (by omega)
  exact ⟨rfl, rfl, hcount, fun c hc => (Lane.get_row_fill (by omega) hc).trans (hf c)⟩

/-- Behind the end of the bytes there are only zeros. -/
theorem Variable.isRowOf_row (hcolumns : columns ≤ 4) (h : data.length ≤ start) :
    (row name t columns.toUInt8).IsRowOf t columns data start width := by
  refine ⟨rfl, rfl, compCount_row (by omega), fun c _ => ?_⟩
  rw [Bytes.paddedWord_of_ge (by omega)]
  exact Value.get_zero c

end

/-- What a load of constants gives is the row of words of its register. -/
theorem Step.isRowOf_constantsRow {b : Bindings} {name : String} {ty : Ty} {slot : Slot} {register : Nat}
    (h0 : 0 < ty.byteSize) (h8 : ty.byteSize ≤ 8) :
    (constantsRow b name ty slot register).IsRowOf ty.elem (max 1 (min (16 / ty.byteSize) 4)) (b.constants slot)
      (register * 16) ty.byteSize := by
  unfold constantsRow Bindings.constants
  rw [Nat.max_eq_left h0]
  cases b.constantBlock? slot with
  | none => exact Variable.isRowOf_row (by omega) (Nat.zero_le _)
  | some block =>
      dsimp only
      split
      · next hmissing =>
          refine Variable.isRowOf_row (by omega) ?_
          show block.data.length ≤ register * 16
          unfold Lane.registerCount at hmissing
          omega
      · refine Variable.isRowOf_fill (by omega) fun c => ?_
        rw [Lane.registerWord, Nat.min_eq_left h8]
        exact Bytes.toWord_take_drop ..

namespace Lane

variable {l : Lane} {s : Setting} {w : World} {i : Instr} {id : Id} {a : Variable} {c : Nat}

/-! ## Members -/

/-- The lane is about to take a member of a value. -/
structure Extracts (l : Lane) (s : Setting) (i : Instr) (id : Id) (a : Variable) (c : Nat) : Prop where
  about : l.AboutTo s.program s.analyses i id
  op : i.op = .extractVal
  length : i.args.length = 2
  arg : l.arg i 0 = .ok a
  pick : l.argNat i 1 = .ok c

theorem Extracts.vector_eq (hextracts : l.Extracts s i id a c) :
    l.advanced.vector i = l.advanced.extractFrom i id (Variable.zeroed (i.resultName id) i.ty) a 1 1 := by
  unfold Lane.vector
  rw [hextracts.about.blank, show l.advanced.arg i 0 = .ok a from hextracts.arg]
  dsimp only [bind, Except.bind]
  rw [hextracts.op]
  dsimp only
  rw [hextracts.length]
  rfl

theorem Extracts.vector (hextracts : l.Extracts s i id a c) (hmembers : a.members = []) :
    l.advanced.vector i =
      if c < a.compCount then .ok (.value id ((Variable.zeroed (i.resultName id) i.ty).set 0 (a.get c)))
      else .error (.program (.extractIndex c a.compCount)) := by
  rw [hextracts.vector_eq]
  unfold extractFrom
  rw [show l.advanced.argNat i 1 = .ok c from hextracts.pick]
  show (if a.members.isEmpty then if 0 ≠ 0 ∨ c ≥ a.compCount then _ else _ else _ : Except Fault Effect) = _
  rw [hmembers, if_pos List.isEmpty_nil]
  by_cases hc : c < a.compCount
  · rw [if_neg (by omega), if_pos hc]
    rfl
  · rw [if_pos (by omega), if_neg hc]
    rfl

/-- A component that the value has is taken. -/
theorem Extracts.step_of_lt (hextracts : l.Extracts s i id a c) (hmembers : a.members = []) (hc : c < a.compCount) :
    l.Gives s w id fun x => x.get 0 = a.get c := by
  refine (hextracts.about.gives_of_vector (.inl hextracts.op) ((hextracts.vector hmembers).trans (if_pos hc))).mono ?_
  rintro _ rfl
  exact Value.get_set_self _ (by decide) _

/-- One that it does not have makes the step fail. -/
theorem Extracts.step_of_ge (hextracts : l.Extracts s i id a c) (hmembers : a.members = []) (hc : a.compCount ≤ c) :
    (l.step s w).result = .error (.program (.extractIndex c a.compCount)) :=
  hextracts.about.fails_of_vector (.inl hextracts.op) ((hextracts.vector hmembers).trans (if_neg (by omega)))

/-- A member of a structure is taken as it is. -/
theorem Extracts.step_of_member {member : Variable} (hextracts : l.Extracts s i id a c)
    (hmember : a.members[c]? = some member) : l.Gives s w id (· = member.withName (i.resultName id)) := by
  have hmembers : ¬ a.members.isEmpty := by
    rw [List.isEmpty_iff]
    rintro hmembers
    rw [hmembers] at hmember
    cases hmember
  refine hextracts.about.gives_of_vector (.inl hextracts.op) ?_
  rw [hextracts.vector_eq]
  unfold extractFrom
  rw [show l.advanced.argNat i 1 = .ok c from hextracts.pick]
  dsimp only [bind, Except.bind]
  rw [if_neg hmembers, hmember]
  rfl

/-! ## Registers -/

/-- The lane is about to load a register as `n` members of one type, which fill it. -/
structure LoadsRegister (l : Lane) (s : Setting) (i : Instr) (id : Id) (h : Handle) (ty : Ty) (n : Nat)
    (register : UInt32) : Prop where
  about : l.AboutTo s.program s.analyses i id
  intrinsic : i.intrinsic? = some .cBufferLoadLegacy
  handle : ∃ source v, i.argId 0 = .ok source ∧ l.handle s.program source = .ok (v, h)
  cls : h.ref.cls = .cBuffer
  members : i.ty.structMembers? = some (List.replicate n ty)
  width : ty.byteSize = 2 ∨ ty.byteSize = 4 ∨ ty.byteSize = 8
  whole : n * ty.byteSize = 16
  register : l.argWord32 i 1 = .ok register

variable {h : Handle} {ty : Ty} {n : Nat} {register : UInt32}

theorem LoadsRegister.columns_eq (hloads : l.LoadsRegister s i id h ty n register) :
    max 1 (min (16 / ty.byteSize) 4) = min n 4 := by
  have hwhole := hloads.whole
  rcases hloads.width with hwidth | hwidth | hwidth <;> rw [hwidth] at hwhole ⊢ <;> omega

/-- The step assigns the row of words of the register, of which there are at most four. -/
theorem LoadsRegister.step (hloads : l.LoadsRegister s i id h ty n register) :
    (∃ state, (l.step s w).result = .ok state) ∧ (l.step s w).world = w ∧
      ∃ r : Variable, (l.step s w).lane.value? = Function.update l.value? id (some r) ∧
        r.IsRowOf ty.elem (min n 4) (s.bindings.constants h.ref.slot) (register.toNat * 16) ty.byteSize := by
  obtain ⟨source, v, hsource, hhandle⟩ := hloads.handle
  have hwidth : 0 < ty.byteSize ∧ ty.byteSize ≤ 8 := by
    have := hloads.width
    omega
  have hresult : i.resultId = .ok id := by rw [Instr.resultId, hloads.about.result]
  have hty : i.ty.structMembers?.bind List.head? = some ty := by
    have hwhole := hloads.whole
    rw [hloads.members, Option.bind_some, List.head?_replicate, if_neg (by rintro rfl; omega)]
  have hon := Step.on_loadConstants (m := { lane := l.advanced, world := w }) hresult hsource hhandle hloads.cls hty
    hloads.register
  obtain ⟨accessed, changes, hnoted⟩ := Step.noted_eq s v.name h.ref { lane := l.advanced, world := w }
  rw [hnoted] at hon
  have hintrinsic : (Step.intrinsic s i .cBufferLoadLegacy).on _ = _ :=
    Step.on_intrinsic_of_effect rfl rfl rfl rfl hon
  obtain ⟨hok, hworld, hvalue⟩ := step_of_intrinsic hloads.about.running hloads.about.next hloads.intrinsic rfl
    hintrinsic hloads.about.place
  refine ⟨hok, hworld, _, hvalue, ?_⟩
  rw [← hloads.columns_eq]
  exact Step.isRowOf_constantsRow hwidth.1 hwidth.2

/-- To load a register always gives a value, and to take one of its first four members gives the word of the member's
    bytes in the constant block, where missing bytes count as zero. A later member cannot be taken. -/
theorem registers_read_back (hloads : l.LoadsRegister s i id h ty n register) :
    (∃ state, (l.step s w).result = .ok state) ∧ (l.step s w).world = w ∧
      ∃ r : Variable, (l.step s w).lane.value? = Function.update l.value? id (some r) ∧
        ∀ {l' : Lane} {s' : Setting} {i' : Instr} {id' : Id} {c : Nat} (w' : World),
          l'.Extracts s' i' id' r c → c < n →
            (c < 4 → (∃ state, (l'.step s' w').result = .ok state) ∧ (l'.step s' w').world = w' ∧
              ∃ x, (l'.step s' w').lane.value? = Function.update l'.value? id' (some x) ∧
                x.get 0 = (s.bindings.constants h.ref.slot).paddedWord (register.toNat * 16 + c * ty.byteSize)
                  ty.byteSize) ∧
            (4 ≤ c → (l'.step s' w').result = .error (.program (.extractIndex c 4))) := by
  obtain ⟨hok, hworld, r, hvalue, hrow⟩ := hloads.step (w := w)
  refine ⟨hok, hworld, r, hvalue, fun {l' s' i' id' c} w' hextracts hn => ⟨fun hc => ?_, fun hc => ?_⟩⟩
  · obtain ⟨hok', hworld', x, hvalue', hx⟩ :=
      hextracts.step_of_lt (w := w') hrow.members (by rw [hrow.compCount]; omega)
    exact ⟨hok', hworld', x, hvalue', hx.trans (hrow.word c (by omega))⟩
  · have hcount : r.compCount = 4 := by
      rw [hrow.compCount]
      omega
    rw [hextracts.step_of_ge hrow.members (by rw [hcount]; exact hc), hcount]

/-- Loads the first register as four numbers of 32 bits. -/
def loadRow : Instr :=
  { op := .call, ty := .struct "" (List.replicate 4 (.int 32)), result := some ⟨1⟩,
    callee := some (.intrinsic .cBufferLoadLegacy), args := [.ref ⟨0⟩, .const (.int 32 0)] }

/-- Takes the second of them. -/
def takeSecond : Instr :=
  { op := .extractVal, ty := .int 32, result := some ⟨2⟩, args := [.ref ⟨1⟩, .const (.int 32 1)] }

/-- Reads a block of constants in both ways, as four numbers of 32 bits and as eight of 16 bits. -/
def constantLoads : Program :=
  { stage := .compute
    resources := [{ name := "constants", cls := .cBuffer, kind := .cBuffer }]
    functions := #[{
      name := "constantLoads"
      blocks := #[{}]
      instrs := #[
        { op := .call, ty := .handle, result := some ⟨0⟩, callee := some (.intrinsic .createHandle),
          args := [.const (.int 32 2), .const (.int 32 0), .const (.int 32 0)] },
        loadRow,
        takeSecond,
        { op := .call, ty := .struct "" (List.replicate 8 (.int 16)), result := some ⟨3⟩,
          callee := some (.intrinsic .cBufferLoadLegacy), args := [.ref ⟨0⟩, .const (.int 32 0)] },
        { op := .extractVal, ty := .int 16, result := some ⟨4⟩, args := [.ref ⟨3⟩, .const (.int 32 4)] },
        { op := .ret }] }]
    idCount := 5 }

/-- A block of six bytes. -/
def sixConstantBytes : Bindings := ({} : Bindings).addConstantBlock "constants" (.ofRegister 0 0) [1, 2, 3, 4, 5, 6]

set_option synthInstance.maxSize 512 in
/-- The second number has the last two bytes of the block, and zeros. -/
theorem constantLoads_pads_word :
    ∃ (s₀ s : Session) (l : Lane) (x : Variable), Session.new constantLoads sixConstantBytes {} [{}] 0 {} = .ok s₀ ∧
      s₀.start.session.advance .unbound 1 = .ok s ∧ s.lanes[0]? = some l ∧
      let loaded := l.step (s.setting .unbound 0) s.world
      (loaded.lane.step (s.setting .unbound 0) loaded.world).lane.value? ⟨2⟩ = some x ∧ x.get 0 = 0x0605 := by
  have h : ∃ s₀, Session.new constantLoads sixConstantBytes {} [{}] 0 {} = .ok s₀ ∧
      ∃ states, s₀.start.result = .ok states ∧ ∃ s, s₀.start.session.advance .unbound 1 = .ok s ∧
      ∃ l, s.lanes[0]? = some l ∧
      ((¬ l.isFinished ∧ l.hasPlace ⟨1⟩) ∧ (s.analyses.of? l.function).isSome ∧ l.function = 0 ∧ l.instr = 1 ∧
        (∃ x, l.handle constantLoads ⟨0⟩ = .ok x ∧ (x.2.ref.cls = .cBuffer ∧
          s.bindings.constants x.2.ref.slot = [1, 2, 3, 4, 5, 6])) ∧
        ∃ register, l.argWord32 loadRow 1 = .ok register ∧ register = 0) ∧
      ∃ l', some (l.step (s.setting .unbound 0) s.world).lane = some l' ∧
      ((¬ l'.isFinished ∧ l'.hasPlace ⟨2⟩) ∧ (s.analyses.of? l'.function).isSome ∧ l'.function = 0 ∧ l'.instr = 2 ∧
        ∃ c, l'.argNat takeSecond 1 = .ok c ∧ c = 1) := by
    decide +kernel
  obtain ⟨s₀, hnew, states, hstart, s, hs, l, hl, ⟨hready, hanalysis, hfunction, hinstr, ⟨⟨v, h⟩, hhandle, hcls, hdata⟩,
    _, hregister, rfl⟩, l', hl', hready', hanalysis', hfunction', hinstr', _, hpick, rfl⟩ := h
  cases hl'
  have hprogram : s.program = constantLoads :=
    ((Session.Reached.started hstart).advance hs).program_eq.trans (Session.fresh_of_new hnew).program
  have hat : l.AboutTo s.program s.analyses loadRow ⟨1⟩ :=
    .of_program hprogram hready hanalysis hfunction hinstr rfl rfl
  have hat' : (l.step (s.setting .unbound 0) s.world).lane.AboutTo s.program s.analyses takeSecond ⟨2⟩ :=
    .of_program hprogram hready' hanalysis' hfunction' hinstr' rfl rfl
  have hloads : l.LoadsRegister (s.setting .unbound 0) loadRow ⟨1⟩ h (.int 32) 4 0 :=
    ⟨hat, rfl, ⟨⟨0⟩, v, rfl, by rw [← hprogram] at hhandle; exact hhandle⟩, hcls, rfl, .inr (.inl rfl), rfl, hregister⟩
  obtain ⟨-, hworld, r, hr, hmembers⟩ := registers_read_back (w := s.world) hloads
  have hextracts : (l.step (s.setting .unbound 0) s.world).lane.Extracts (s.setting .unbound 0) takeSecond ⟨2⟩ r 1 := by
    refine ⟨hat', rfl, rfl, ?_, hpick⟩
    show (l.step _ _).lane.operand (.ref ⟨1⟩) false = .ok r
    unfold operand
    rw [hr]
    rfl
  obtain ⟨hsecond, -⟩ := hmembers (l.step (s.setting .unbound 0) s.world).world hextracts (by decide)
  obtain ⟨-, -, x, hx, hword⟩ := hsecond (by decide)
  refine ⟨s₀, s, l, x, hnew, hs, hl, by rw [hx, Function.update_self], ?_⟩
  rw [hword]
  show (s.bindings.constants h.ref.slot).paddedWord _ _ = _
  rw [hdata]
  decide

set_option synthInstance.maxSize 512 in
/-- After a load of eight numbers of 16 bits, which succeeds, the fifth of them cannot be taken. -/
theorem constantLoads_lacks_fifth_short :
    ∃ s₀, Session.new constantLoads sixConstantBytes {} [{}] 0 {} = .ok s₀ ∧
      (∃ s, s₀.start.session.advance .unbound 3 = .ok s ∧ ∃ l, s.lanes[0]? = some l ∧
        ∃ next, l.nextInstr s.program s.analyses = .ok next ∧ (next.2.intrinsic? = some .cBufferLoadLegacy ∧
          next.2.ty.structMembers?.map (·.map Ty.byteSize) = some (List.replicate 8 2) ∧
          next.2.result = some ⟨3⟩)) ∧
      ∃ s, s₀.start.session.advance .unbound 4 = .ok s ∧ ∃ l, s.lanes[0]? = some l ∧
      (∃ next, l.nextInstr s.program s.analyses = .ok next ∧ next.2.op = .extractVal ∧
        (∃ source, next.2.argId 0 = .ok source ∧ source = ⟨3⟩) ∧ ∃ c, l.argNat next.2 1 = .ok c ∧ c = 4) ∧
      ¬ ∃ state, (l.step (s.setting .unbound 0) s.world).result = .ok state := by
  decide +kernel

end Lane

end Lockstep
