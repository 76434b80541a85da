import Lockstep.Proofs.Lane.Value
import Lockstep.Proofs.Parts
import Lockstep.Proofs.Session.Rounds
import Lockstep.Proofs.Typing.Compute

set_option autoImplicit false

/-! # Element pointers

A pointer that is derived along a path of indices leads to the bytes of the part at the end of the path, as
values are laid out, and to derive it in two stretches gives the same pointer (`Lane.elements_match_layout`). -/

namespace Lockstep

variable {i : Instr} {ty part : Ty} {k : Nat} {path : List Nat}

namespace Lane

/-! ## Offsets -/

section

variable {offset size : Nat}

theorem checkedOffset_natCast {n : Nat} (h : n < 2 ^ 63) : checkedOffset (n : Int) = .ok (n : Int) := by
  unfold checkedOffset
  rw [Int64.toInt_minValue, Int64.toInt_maxValue, if_pos (by omega)]

theorem signedSize_of_lt (h : size < 2 ^ 63) : signedSize size = size := by
  unfold signedSize
  rw [Nat.toUInt64_eq, UInt64.toInt64_ofNat', Int64.toInt_ofNat_of_lt h]

theorem advance_natCast (hsize : size < 2 ^ 63) (h : offset + k * size < 2 ^ 63) :
    advance offset k size = .ok ((offset + k * size : Nat) : Int) := by
  unfold advance
  rw [signedSize_of_lt hsize, ← Int.natCast_mul, checkedOffset_natCast (Nat.lt_of_le_of_lt (Nat.le_add_left ..) h)]
  show checkedOffset _ = _
  rw [← Int.natCast_add, Nat.add_comm, checkedOffset_natCast h]

/-- An index goes past the parts before the one that it selects. -/
theorem selectElement_eq {const : Bool} (hty : ty.IsData) (hpart : ty.parts[k]? = some part)
    (hroom : offset + ty.layoutSize < 2 ^ 63) (hconst : ty.structMembers?.isSome → const) :
    selectElement offset ty k const = .ok (((offset + Ty.layoutSizes (ty.parts.take k) : Nat) : Int), part) := by
  have hinside := hty.layoutSizes_take_le hpart
  cases hty with
  | scalar => cases hpart
  | vector | array =>
      obtain ⟨hk, helem⟩ := Option.ite_none_right_eq_some.1 (List.getElem?_replicate.symm.trans hpart)
      cases helem
      rw [Ty.parts, Ty.layoutSizes_take_replicate hk] at hinside ⊢
      rw [selectElement, Ty.byteSize_of_lt (by omega), advance_natCast (by omega) (by omega)]
      rfl
  | @struct name members hmembers =>
      rw [Ty.parts] at hpart hinside ⊢
      have hskip : (members.take k).foldl (fun n t => n + t.byteSize) 0 = 0 + Ty.layoutSizes (members.take k) :=
        Ty.foldl_byteSize (by omega)
      rw [Nat.zero_add] at hskip
      have hlt : Ty.layoutSizes (members.take k) < 2 ^ 63 := by omega
      rw [selectElement, hconst rfl]
      simp only [Bool.not_true, Bool.false_eq_true, if_false, Int.toNat_natCast,
        if_neg (Int.not_lt.2 (Int.natCast_nonneg k)), hpart]
      rw [hskip, Nat.mod_eq_of_lt (Nat.lt_trans hlt (by decide)), signedSize_of_lt hlt, ← Int.natCast_add,
        checkedOffset_natCast (by omega)]
      rfl

end

/-! ## Paths -/

/-- The operands of an instruction from a position on stand for a path of indices into a type. Indices of members
    are constants. -/
inductive Picks (l : Lane) (i : Instr) : (index : Nat) → Ty → List Nat → Ty → Prop
  | here (index : Nat) (ty : Ty) : Picks l i index ty [] ty
  | into {index k : Nat} {ty inner part : Ty} {path : List Nat} {v : Variable} (harg : l.arg i index = .ok v)
      (hv : (v.intComp 0).toInt = k)
      (hconst : ty.structMembers?.isSome → i.args[index]?.any Operand.isConst)
      (hinner : ty.parts[k]? = some inner) (hrest : Picks l i (index + 1) inner path part) :
      Picks l i index ty (k :: path) part

/-- An instruction derives a pointer from one into its allocation, along a path of indices into what that leads
    to. -/
structure TakesElement (l : Lane) (shared : Memory) (i : Instr) (q : Pointer) (path : List Nat) (part : Ty) :
    Prop where
  op : i.op = .getElementPtr
  source : ∃ src, i.argId 0 = .ok src ∧ l.resolve shared src = .ok q
  data : q.pointee.IsData
  room : ∃ a, (l.memoryOf shared q.base).allocation? q.base = some a ∧
    q.offset + q.pointee.layoutSize ≤ a.bytes.length ∧ a.bytes.length < 2 ^ 63
  first : ∃ v, l.arg i 1 = .ok v ∧ (v.intComp 0).toInt = 0
  count : i.args.length = path.length + 2
  picks : l.Picks i 2 q.pointee path part
  declared : ∀ ty, i.ty.pointee? = some ty → ty.byteSize = part.byteSize

variable {l : Lane} {shared : Memory} {q : Pointer} {s : Setting} {w : World} {id : Id}

namespace Picks

variable {index : Nat}

theorem at?_eq (h : l.Picks i index ty path part) : ty.at? path = some part := by
  induction h with
  | here => rfl
  | into _ _ _ hinner _ ih =>
      rw [Ty.at?, hinner]
      exact ih

/-- To go along a path skips what lies before the part at its end. -/
theorem selectPath_eq (h : l.Picks i index ty path part) (hty : ty.IsData) {offset : Nat}
    (hroom : offset + ty.layoutSize < 2 ^ 63) :
    l.selectPath i offset ty index path.length = .ok (((offset + ty.startAt path : Nat) : Int), part) := by
  induction h generalizing offset with
  | here => rfl
  | @into index k ty inner part path v harg hv hconst hinner _ ih =>
      have hinside := hty.layoutSizes_take_le hinner
      have hselect := selectElement_eq hty hinner hroom hconst
      have hroom' : offset + Ty.layoutSizes (ty.parts.take k) + inner.layoutSize < 2 ^ 63 := by omega
      have hrest := ih (hty.of_mem_parts (List.mem_of_getElem? hinner)) hroom'
      rw [List.length_cons, selectPath, harg]
      show (selectElement offset ty (v.intComp 0).toInt _ >>= _) = _
      rw [hv, hselect]
      rw [Ty.startAt, hinner, ← Nat.add_assoc]
      exact hrest

end Picks

end Lane

/-- The pointer to the part at the end of a path. -/
def Pointer.toPart (q : Pointer) (path : List Nat) (part : Ty) : Pointer :=
  { base := q.base, offset := q.offset + q.pointee.startAt path, size := part.byteSize, pointee := part }

namespace Lane

variable {l : Lane} {shared : Memory} {q : Pointer} {s : Setting} {w : World} {id : Id}

namespace TakesElement

/-- The part lies inside the allocation. -/
theorem inside (h : l.TakesElement shared i q path part) :
    ∃ a, (l.memoryOf shared q.base).allocation? q.base = some a ∧
      q.offset + q.pointee.startAt path + part.byteSize ≤ a.bytes.length ∧ a.bytes.length < 2 ^ 63 := by
  obtain ⟨a, ha, hroom, hsmall⟩ := h.room
  have hpart := h.data.startAt_add_le h.picks.at?_eq
  refine ⟨a, ha, ?_, hsmall⟩
  rw [Ty.byteSize_of_lt (by omega)]
  omega

theorem derive_eq (h : l.TakesElement shared i q path part) :
    l.derive shared i = .ok (q.toPart path part) := by
  obtain ⟨src, hsrc, hresolve⟩ := h.source
  obtain ⟨first, hfirst, hzero⟩ := h.first
  obtain ⟨a, ha, hroom, hsmall⟩ := h.room
  obtain ⟨_, ha', hinside, -⟩ := h.inside
  cases ha.symm.trans ha'
  have hstart : advance (signedSize q.offset) 0 q.pointee.byteSize = .ok (q.offset : Int) := by
    have hsize : q.pointee.layoutSize < 2 ^ 63 := by omega
    have hnone : q.offset + 0 * q.pointee.layoutSize < 2 ^ 63 := by omega
    rw [signedSize_of_lt (by omega), Ty.byteSize_of_lt hsize]
    simpa using advance_natCast hsize hnone
  have hend : q.offset + q.pointee.layoutSize < 2 ^ 63 := by omega
  have hpath := h.picks.selectPath_eq h.data hend
  have hcount : i.args.length - 2 = path.length := by rw [h.count, Nat.add_sub_cancel]
  unfold derive
  rw [hsrc]
  show (l.resolve shared src >>= _) = _
  rw [hresolve]
  show (if i.args.length < 2 then _ else _) = _
  rw [if_neg (by rw [h.count]; omega)]
  show (l.arg i 1 >>= _) = _
  rw [hfirst]
  show (advance (signedSize q.offset) (first.intComp 0).toInt q.pointee.byteSize >>= _) = _
  rw [hzero, hstart]
  show (l.selectPath i q.offset q.pointee 2 (i.args.length - 2) >>= _) = _
  rw [hcount, hpath]
  have hplace : placeAt q.base a.bytes.length ((q.offset + q.pointee.startAt path : Nat) : Int) part =
      .ok (q.toPart path part) := by
    unfold placeAt
    exact if_pos ⟨Int.natCast_nonneg _, by exact_mod_cast hinside⟩
  dsimp only
  cases hdeclared : i.ty.pointee? with
  | none =>
      rw [ha]
      exact hplace
  | some ty =>
      show (if ty.byteSize ≠ part.byteSize then _ else _) = _
      rw [if_neg fun hne => hne (h.declared ty hdeclared), ha]
      exact hplace

/-- The bytes of the part can be read. -/
theorem read (h : l.TakesElement shared i q path part) :
    ∃ bytes, l.readThrough shared (q.toPart path part) = .ok bytes := by
  obtain ⟨a, ha, hinside, hsmall⟩ := h.inside
  have hstop : (q.toPart path part).stop (q.toPart path part).size =
      q.offset + q.pointee.startAt path + part.byteSize :=
    Nat.mod_eq_of_lt (Nat.lt_of_le_of_lt hinside (Nat.lt_trans hsmall (by decide)))
  obtain ⟨bytes, hslice⟩ : ∃ bytes, a.bytes.slice? (q.offset + q.pointee.startAt path)
      (q.offset + q.pointee.startAt path + part.byteSize) = some bytes :=
    ⟨_, if_pos ⟨Nat.le_add_right .., hinside⟩⟩
  refine ⟨bytes, ?_⟩
  unfold readThrough Memory.read
  rw [show (q.toPart path part).base = q.base from rfl, ha]
  dsimp only
  rw [hstop, show (q.toPart path part).offset = q.offset + q.pointee.startAt path from rfl, hslice]

/-- The instruction gives the part that its pointer leads to, and makes its result that pointer. -/
theorem compute (h : l.TakesElement w.memory i q path part) (hid : i.result = some id) :
    ∃ v, (Step.compute s i).on { lane := l.advanced, world := w } = (.ok (.value id v),
      { lane := { l.advanced with memory := l.memory.addPointer id (q.toPart path part) }, world := w }) := by
  obtain ⟨bytes, hread⟩ := h.read
  refine ⟨(Variable.zeroed (i.resultName id) part).ofBytes bytes, ?_⟩
  have hresult : i.resultId = .ok id := by
    unfold Instr.resultId
    rw [hid]
  have hderive : l.advanced.derive w.memory i = .ok (q.toPart path part) :=
    (Step.derive_advanced ..).trans h.derive_eq
  have hread' : l.advanced.readThrough w.memory (q.toPart path part) = .ok bytes := hread
  unfold Step.compute
  rw [h.op]
  show Step.on (Step.memory i) _ = _
  unfold Step.memory
  rw [h.op]
  show Step.on (Step.elementPointer i) _ = _
  unfold Step.elementPointer
  rw [Step.on_bind, Step.on_lift, hresult]
  show Step.on (liftM (l.advanced.derive w.memory i) >>= _) _ = _
  rw [Step.on_bind, Step.on_lift, hderive]
  show Step.on (liftM (l.advanced.readThrough w.memory (q.toPart path part)) >>= _) _ = _
  rw [Step.on_bind, Step.on_lift, hread']
  rfl

/-- The step of the instruction makes its result the pointer to the part. -/
theorem step (h : l.TakesElement w.memory i q path part) (hat : l.AboutTo s.program s.analyses i id) :
    (∃ state, (l.step s w).result = .ok state) ∧
      (l.step s w).lane.memory.pointer? id = some (q.toPart path part) := by
  obtain ⟨v, hcompute⟩ := h.compute (s := s) hat.result
  obtain ⟨a, hok, -, hlane⟩ := hat.step_after hcompute hat.place
  refine ⟨hok, ?_⟩
  rw [hlane, bringIntoScope, memory_assign]
  exact (Memory.pointer?_addPointer ..).trans (if_pos rfl)

end TakesElement

/-- A value of data has as many bytes as its type says. The step that derives a pointer along a path succeeds, and
    its pointer leads to the bytes of the part at the end of the path, whatever value is there. To go on from that
    pointer leads to where the whole path leads. -/
theorem elements_match_layout (h : l.AboutTo s.program s.analyses i id)
    (htakes : l.TakesElement w.memory i q path part) :
    (∀ {ty : Ty} {v : Variable}, ty.IsData → ty.layoutSize < 2 ^ 63 → v.Shaped ty →
      v.toBytes.length = ty.byteSize) ∧
    (∃ state, (l.step s w).result = .ok state) ∧
    ∃ d, (l.step s w).lane.memory.pointer? id =
        some { base := q.base, offset := q.offset + d, size := part.byteSize, pointee := part } ∧
      (∀ v : Variable, v.Shaped q.pointee → ∃ inner, v.at? path = some inner ∧ inner.Shaped part ∧
        v.toBytes.slice? d (d + part.byteSize) = some inner.toBytes) ∧
      ∀ {s₁ s₂ : Setting} {w₁ w₂ : World} {l₁ l₂ : Lane} {i₁ i₂ : Instr} {id₁ id₂ : Id} {r : Pointer}
        {rest : List Nat} {part₁ part₂ : Ty}, (l.step s w).lane.memory.pointer? id = some r →
        l₁.AboutTo s₁.program s₁.analyses i₁ id₁ → l₁.TakesElement w₁.memory i₁ r rest part₁ →
        l₂.AboutTo s₂.program s₂.analyses i₂ id₂ → l₂.TakesElement w₂.memory i₂ q (path ++ rest) part₂ →
        ∃ r', (l₁.step s₁ w₁).lane.memory.pointer? id₁ = some r' ∧
          (l₂.step s₂ w₂).lane.memory.pointer? id₂ = some r' := by
  obtain ⟨hok, hpointer⟩ := htakes.step h
  obtain ⟨a, -, hroom, hsmall⟩ := htakes.room
  have hpath := htakes.picks.at?_eq
  have hinside := htakes.data.startAt_add_le hpath
  refine ⟨fun hty hlt hv => (hv.length_toBytes hty).trans (Ty.byteSize_of_lt hlt).symm, hok,
    q.pointee.startAt path, hpointer, fun v hv => ?_, ?_⟩
  · rw [Ty.byteSize_of_lt (by omega)]
    exact Variable.slice?_at htakes.data hv hpath
  · intro s₁ s₂ w₁ w₂ l₁ l₂ i₁ i₂ id₁ id₂ r rest part₁ part₂ hr h₁ htakes₁ h₂ htakes₂
    cases hpointer.symm.trans hr
    have hpart : part₁ = part₂ := by
      have hrest := (Ty.at?_append hpath).symm.trans htakes₂.picks.at?_eq
      exact Option.some.inj (htakes₁.picks.at?_eq.symm.trans hrest)
    refine ⟨_, (htakes₁.step h₁).2, ?_⟩
    rw [(htakes₂.step h₂).2, hpart]
    unfold Pointer.toPart
    rw [Ty.startAt_append hpath, ← Nat.add_assoc]

/-- A half and three bytes. -/
def entry : Ty := .struct "Entry" [.float 16, .vector (.int 8) 3]

/-- A truth value and two entries. -/
def record : Ty := .struct "Record" [.bool, .array entry 2]

/-- Whether a type is that of these records. -/
def isRecord : Ty → Bool
  | .struct "Record" [.scalar .int 1,
      .array (.struct "Entry" [.scalar .float 16, .vector (.scalar .int 8) 3]) 2] => true
  | _ => false

/-- The pointer to a whole record. -/
def whole : Pointer := { base := ⟨0⟩, offset := 0, size := 11, pointee := record }

theorem eq_whole (h : isRecord q.pointee ∧ q.base = ⟨0⟩ ∧ q.offset = 0 ∧ q.size = 11) : q = whole := by
  obtain ⟨base, offset, size, pointee⟩ := q
  obtain ⟨hrecord, rfl, rfl, rfl⟩ := h
  refine congrArg (Pointer.mk ⟨0⟩ 0 11) ?_
  unfold isRecord at hrecord
  split at hrecord
  · next hpointee => exact hpointee
  · cases hrecord

theorem entry_isData : entry.IsData := by
  refine .struct fun ty hty => ?_
  rcases List.mem_pair.1 hty with rfl | rfl
  · exact .scalar (by decide)
  · exact .vector (by decide) (by decide)

theorem record_isData : record.IsData := by
  refine .struct fun ty hty => ?_
  rcases List.mem_pair.1 hty with rfl | rfl
  · exact .scalar (by decide)
  · exact .array entry_isData

/-- The pointer to what a path of constants leads to from another pointer. -/
def pointTo (result source : Nat) (ty : Ty) (path : List UInt64) : Instr :=
  { op := .getElementPtr, ty := .pointer ty .stack, result := some ⟨result⟩
    args := .ref ⟨source⟩ :: .const (.int 32 0) :: path.map fun k => .const (.int 32 k) }

/-- Points at the second entry of a record, from there at its last byte, and at that byte at once. -/
def derivedPointers : Program :=
  { stage := .compute
    functions := #[{
      name := "derivedPointers"
      blocks := #[{}]
      instrs := #[
        { op := .alloca, ty := .pointer record .stack, result := some ⟨0⟩ },
        pointTo 1 0 entry [1, 1],
        pointTo 2 1 (.int 8) [1, 2],
        pointTo 3 0 (.int 8) [1, 1, 1, 2],
        { op := .ret }] }]
    idCount := 4 }

/-- A lane is about to run an instruction of this program, with the record in its memory. -/
def AtWithRecord (l : Lane) (s : Session) (n : Nat) (id : Id) : Prop :=
  (¬ l.isFinished ∧ l.hasPlace id) ∧ (s.analyses.of? l.function).isSome ∧ l.function = 0 ∧ l.instr = n ∧
    ∃ a, (l.memoryOf s.world.memory ⟨0⟩).allocation? ⟨0⟩ = some a ∧ a.bytes.length = 11

instance (l : Lane) (s : Session) (n : Nat) (id : Id) : Decidable (l.AtWithRecord s n id) :=
  inferInstanceAs (Decidable (_ ∧ _))

theorem resolve_of_pointer (h : l.memory.pointer? id = some q) : l.resolve shared id = .ok q := by
  unfold resolve
  rw [h]
  rfl

theorem picks_pointTo {result source : Nat} {ty₀ : Ty} {numbers whole : List UInt64} {index : Nat}
    (hargs : (pointTo result source ty₀ whole).args.drop index = numbers.map fun k => .const (.int 32 k))
    (hsmall : ∀ k ∈ numbers, ((Constant.int 32 k).toVariable.intComp 0).toInt = k.toNat)
    (hpath : ty.at? (numbers.map UInt64.toNat) = some part) :
    l.Picks (pointTo result source ty₀ whole) index ty (numbers.map UInt64.toNat) part := by
  induction numbers generalizing index ty with
  | nil =>
      cases hpath
      exact .here ..
  | cons k numbers ih =>
      obtain ⟨inner, hinner, hrest⟩ := Option.bind_eq_some_iff.1 hpath
      obtain ⟨hindex, hargs'⟩ := getElem?_of_drop hargs
      refine .into (arg_const Bool.false_ne_true hindex) (hsmall k List.mem_cons_self) (fun _ => ?_) hinner
        (ih hargs' (fun k hk => hsmall k (List.mem_cons_of_mem _ hk)) hrest)
      rw [hindex]
      rfl

/-- A bearing of this program derives a pointer along its path. -/
theorem AtWithRecord.takes {t : Session} {n result source : Nat} {numbers : List UInt64} (h : l.AtWithRecord t n id)
    (hresolve : l.resolve t.world.memory ⟨source⟩ = .ok q) (hbase : q.base = ⟨0⟩) (hdata : q.pointee.IsData)
    (hroom : q.offset + q.pointee.layoutSize ≤ 11)
    (hsmall : numbers.all fun k => ((Constant.int 32 k).toVariable.intComp 0).toInt == k.toNat)
    (hpath : q.pointee.at? (numbers.map UInt64.toNat) = some part) :
    l.TakesElement t.world.memory (pointTo result source part numbers) q (numbers.map UInt64.toNat) part := by
  obtain ⟨-, -, -, -, a, ha, hlength⟩ := h
  have hsmall' := fun k hk => eq_of_beq (List.all_eq_true.1 hsmall k hk)
  refine ⟨rfl, ⟨_, rfl, hresolve⟩, hdata, ⟨a, hbase ▸ ha, by omega, by omega⟩,
    ⟨_, arg_const Bool.false_ne_true rfl, by decide⟩, by simp [pointTo], picks_pointTo rfl hsmall' hpath,
    fun ty hty => ?_⟩
  cases hty
  rfl

theorem AtWithRecord.aboutTo {t : Session} {n : Nat} (h : l.AtWithRecord t n id)
    (hprogram : t.program = derivedPointers) (hi : derivedPointers.functions[0].instrs[n]? = some i)
    (hid : i.result = some id) :
    l.AboutTo (t.setting .unbound 0).program (t.setting .unbound 0).analyses i id := by
  obtain ⟨hready, hanalysis, hfunction, hinstr, -⟩ := h
  refine .of_place hready hanalysis (f := derivedPointers.functions[0]) ?_ (hinstr ▸ hi) hid
  show t.program.functions[l.function]? = _
  rw [hprogram, hfunction]
  rfl

set_option synthInstance.maxSize 4096 in
/-- Both ways lead to the last byte of the record. -/
theorem derivedPointers_meet :
    ∃ (s₀ s : Session) (l : Lane) (r : Pointer), Session.new derivedPointers {} {} [{}] 0 {} = .ok s₀ ∧
      s₀.start.session.advance .unbound 1 = .ok s ∧ s.lanes[0]? = some l ∧
      let next l := (Lane.step l (s.setting .unbound 0) s.world).lane
      (next (next l)).memory.pointer? ⟨2⟩ = some r ∧ (next (next (next l))).memory.pointer? ⟨3⟩ = some r ∧
        r.base = ⟨0⟩ ∧ r.offset = 10 ∧ r.size = 1 := by
  have h : ∃ s₀, Session.new derivedPointers {} {} [{}] 0 {} = .ok s₀ ∧ ∃ states, s₀.start.result = .ok states ∧
      ∃ s, s₀.start.session.advance .unbound 1 = .ok s ∧ ∃ l, s.lanes[0]? = some l ∧
      (l.AtWithRecord s 1 ⟨1⟩ ∧ ∃ q, l.resolve s.world.memory ⟨0⟩ = .ok q ∧
        (isRecord q.pointee ∧ q.base = ⟨0⟩ ∧ q.offset = 0 ∧ q.size = 11) ∧
      ∃ j, some (l.step (s.setting .unbound 0) s.world).lane = some j ∧
      (j.AtWithRecord s 2 ⟨2⟩ ∧ ∃ q₁, j.memory.pointer? ⟨1⟩ = some q₁ ∧ q₁.offset = 6 ∧
      ∃ e, some (j.step (s.setting .unbound 0) s.world).lane = some e ∧
      (e.AtWithRecord s 3 ⟨3⟩ ∧ ∃ q₂, e.memory.pointer? ⟨2⟩ = some q₂ ∧ (q₂.base = ⟨0⟩ ∧ q₂.offset = 10 ∧ q₂.size = 1) ∧
        ∃ q', e.resolve s.world.memory ⟨0⟩ = .ok q' ∧
          (isRecord q'.pointee ∧ q'.base = ⟨0⟩ ∧ q'.offset = 0 ∧ q'.size = 11)))) := by
    decide +kernel
  obtain ⟨s₀, hnew, _, hstart, s, hs, l, hl, hrecord, q, hq, hwhole, j, hj, hrecord₁, q₁, hq₁, hoffset₁, e, he,
    hrecord₂, q₂, hq₂, hbyte, q', hq', hwhole'⟩ := h
  cases hj
  cases he
  obtain rfl := eq_whole hwhole
  obtain rfl := eq_whole hwhole'
  have hprogram : s.program = derivedPointers :=
    ((Session.Reached.started hstart).advance hs).program_eq.trans (Session.fresh_of_new hnew).program
  have htakes : l.TakesElement s.world.memory (pointTo 1 0 entry [1, 1]) whole [1, 1] entry :=
    hrecord.takes hq rfl record_isData (by decide) (by decide) rfl
  obtain ⟨-, -, d, hpointer, -, hchain⟩ := elements_match_layout (hrecord.aboutTo hprogram rfl rfl) htakes
  cases hpointer.symm.trans hq₁
  have hroom : whole.offset + d + entry.layoutSize ≤ 11 := by
    rw [show whole.offset + d = 6 from hoffset₁]
    decide
  have htakes₁ : TakesElement _ s.world.memory (pointTo 2 1 (.int 8) [1, 2]) _ [1, 2] (.int 8) :=
    hrecord₁.takes (resolve_of_pointer hq₁) rfl entry_isData hroom (by decide) rfl
  have htakes₂ : TakesElement _ s.world.memory (pointTo 3 0 (.int 8) [1, 1, 1, 2]) whole [1, 1, 1, 2] (.int 8) :=
    hrecord₂.takes hq' rfl record_isData (by decide) (by decide) rfl
  obtain ⟨r, hr, hr'⟩ := hchain hpointer (hrecord₁.aboutTo hprogram rfl rfl) htakes₁ (hrecord₂.aboutTo hprogram rfl rfl)
    htakes₂
  cases hr.symm.trans hq₂
  exact ⟨s₀, s, l, _, hnew, hs, hl, hr, hr', hbyte⟩

end Lane

end Lockstep
