import Lockstep.Proofs.Integer
import Lockstep.Proofs.Lane.Value
import Lockstep.Proofs.Session.Rounds
import Lockstep.Proofs.Typing.Compute

set_option autoImplicit false

/-! # Integer instructions

Arithmetic, comparisons and casts of width of integers and of vectors of integers give, in each component, what
the two's-complement operation gives of the low bits of the operands' components
(`Lane.integers_as_meant`). -/

namespace Lockstep

/-! ## Casts -/

/-- The number of `m` bits that a cast makes of a number of `n` bits. -/
def Opcode.widthCast? {n : Nat} (op : Opcode) (m : Nat) (x : BitVec n) : Option (BitVec m) :=
  match op with
  | .trunc => some (x.truncate m)
  | .zExt => some (x.zeroExtend m)
  | .sExt => some (x.signExtend m)
  | _ => none

theorem Lane.castComp?_eq {op : Opcode} {src dst : ElemType} {n m : Nat} (h : op.Casts .int n .int m)
    (hsrc : src.bits = n) (hdst : dst.bits = m) (h0 : 0 < n) (hm : m ≤ 64) (v : UInt64) :
    castComp? op src dst v = (op.widthCast? m (lowBits n v)).map wordOf := by
  subst hsrc hdst
  cases h with
  | trunc hlt =>
      show some (v &&& mask dst.bits) = some (wordOf ((lowBits src.bits v).setWidth dst.bits))
      rw [← wordOf_lowBits, lowBits, lowBits, BitVec.setWidth_setWidth_of_le _ (Nat.le_of_lt hlt)]
  | zExt hlt =>
      show some (v &&& mask src.bits) = some (wordOf ((lowBits src.bits v).setWidth dst.bits))
      rw [← wordOf_lowBits, wordOf, wordOf, BitVec.setWidth_setWidth (by omega)]
  | sExt hlt =>
      show some ((signExtend v src.bits).toUInt64 &&& mask dst.bits) =
        some (wordOf ((lowBits src.bits v).signExtend dst.bits))
      rw [← wordOf_lowBits, lowBits_toUInt64 hm, toInt_signExtend_eq h0 (by omega)]
      rfl

/-! ## Instructions -/

namespace ScalarKind

theorem le_of_mem_widths {n : Nat} (h : n ∈ ScalarKind.int.widths) : 0 < n ∧ n ≤ 64 := by
  simp only [widths, List.mem_cons, List.not_mem_nil, or_false] at h
  omega

theorem isFloat_intElem (n : Nat) : ¬ (Ty.intElem n).isFloat := by
  unfold Ty.intElem
  split <;> exact Bool.false_ne_true

end ScalarKind

namespace Ty.Numbers

variable {kind : ScalarKind} {bits : Nat} {count : Option Nat} {ty : Ty}

/-- A value has as many components as the type says, if it can. -/
theorem compCount_eq (h : ty.Numbers kind bits count) (hcount : ty.elementCount ≤ 16) :
    count.elim 1 (·.toUInt8.toNat) = ty.elementCount := by
  cases h with
  | one => rfl
  | vector => exact Nat.mod_eq_of_lt (Nat.lt_of_le_of_lt hcount (by decide))

theorem isInt (h : ty.Numbers .int bits count) : ty.isInt := by
  cases h <;> rfl

end Ty.Numbers

theorem Variable.fillOr_of_forall {v : Variable} {fault : Fault} {f : Nat → Option UInt64} {g : Nat → UInt64}
    (h : ∀ c, f c = some (g c)) : v.fillOr fault f = .ok (v.fill g) := by
  obtain rfl : f = fun c => some (g c) := funext h
  exact if_pos (List.all_eq_true.2 fun _ _ => rfl)

/-- A value that is not of floats is assigned as it is. -/
theorem Instr.assigned_of_not_isFloat {i : Instr} {v : Variable} (h : ¬ v.elem.isFloat) : i.assigned v = v := by
  unfold assigned Variable.flushed
  rw [if_neg (c := v.elem = .float) fun helem => h (by rw [helem]; rfl), ite_self]

namespace Lane

variable {l : Lane} {i : Instr} {id : Id} {s : Setting} {w : World} {n : Nat} {f : Nat → BitVec n}

/-- What an integer instruction is meant to compute: for each component, a number as wide as its result. The
    components of the operands may be any words. -/
inductive Calculates (l : Lane) (i : Instr) : (n : Nat) → (Nat → BitVec n) → Prop
  | arithmetic {n : Nat} {count : Option Nat} {a b : Variable} {result : BitVec n → BitVec n → BitVec n}
      (hop : ∀ x y, i.op.intResult? x y = some (result x y)) (hty : i.ty.Numbers .int n count)
      (ha : l.arg i 0 = .ok a) (hb : l.arg i 1 = .ok b) :
      Calculates l i n fun c => result (lowBits n (a.get c)) (lowBits n (b.get c))
  | comparison {n : Nat} {count : Option Nat} {a b : Variable} {holds : BitVec n → BitVec n → Bool}
      (hop : ∀ x y, i.op.intRelation? x y = some (holds x y)) (hty : i.ty.Numbers .int 1 count)
      (ha : l.arg i 0 = .ok a) (hb : l.arg i 1 = .ok b) (hn : n ∈ ScalarKind.int.widths)
      (helem : a.elem = Ty.intElem n) :
      Calculates l i 1 fun c => .ofBool (holds (lowBits n (a.get c)) (lowBits n (b.get c)))
  | cast {m n : Nat} {count : Option Nat} {a : Variable} {cast : BitVec m → BitVec n}
      (hcasts : i.op.Casts .int m .int n) (hop : ∀ x, i.op.widthCast? n x = some (cast x))
      (hty : i.ty.Numbers .int n count) (ha : l.arg i 0 = .ok a) (hm : m ∈ ScalarKind.int.widths)
      (helem : a.elem = Ty.intElem m) : Calculates l i n fun c => cast (lowBits m (a.get c))

theorem Calculates.numbers (h : l.Calculates i n f) : ∃ count, i.ty.Numbers .int n count := by
  cases h with
  | arithmetic _ hty => exact ⟨_, hty⟩
  | comparison _ hty => exact ⟨_, hty⟩
  | cast _ _ hty => exact ⟨_, hty⟩

theorem compares_of_intRelation? {op : Opcode} {holds : BitVec n → BitVec n → Bool}
    (h : ∀ x y, op.intRelation? x y = some (holds x y)) : op.compares .int := by
  have h := h 0 0
  cases op <;> first | rfl | cases h

/-- One operation stands for what an instruction computes of all numbers. -/
theorem exists_intOp {op : Opcode} {result : BitVec n → BitVec n → BitVec n}
    (h : ∀ x y, op.intResult? x y = some (result x y)) :
    ∃ intOp, op.intOp? = some intOp ∧ ∀ x y, intOp.meaning x y = result x y := by
  simp only [op.intResult?_eq, Option.map_eq_some_iff] at h
  obtain ⟨intOp, hop, -⟩ := h 0 0
  refine ⟨intOp, hop, fun x y => ?_⟩
  obtain ⟨_, hop', hxy⟩ := h x y
  cases hop.symm.trans hop'
  exact hxy

theorem compute_intResult {count : Option Nat} {a b : Variable} {result : BitVec n → BitVec n → BitVec n}
    (hblank : i.blank = .ok (id, .zeroed (i.resultName id) i.ty))
    (hop : ∀ x y, i.op.intResult? x y = some (result x y)) (hty : i.ty.Numbers .int n count)
    (ha : l.arg i 0 = .ok a) (hb : l.arg i 1 = .ok b) :
    (Step.compute s i).on { lane := l.advanced, world := w } =
      (.ok (.value id ((Variable.zeroed (i.resultName id) i.ty).fill fun c =>
        wordOf (result (lowBits n (a.get c)) (lowBits n (b.get c))))), { lane := l.advanced, world := w }) := by
  obtain ⟨h0, hn⟩ := ScalarKind.le_of_mem_widths hty.bits_mem
  obtain ⟨op, hop, hmeaning⟩ := exists_intOp hop
  rw [Step.on_compute_arithmetic (.inl (by rw [hop]; rfl))]
  refine congrArg (·, _) ?_
  show l.arithmetic i = _
  unfold Lane.arithmetic
  rw [hblank, ha, hb]
  dsimp only [bind, Except.bind]
  rw [hop]
  show (if !i.ty.isInt then _ else _ : Except Fault Effect) = _
  rw [if_neg (by simp [hty.isInt]), hty.scalarBits_eq]
  simp only [op.apply_eq h0 hn, hmeaning]
  rfl

theorem compute_intRelation {a b : Variable} {holds : BitVec n → BitVec n → Bool}
    (hblank : i.blank = .ok (id, .zeroed (i.resultName id) i.ty))
    (hop : ∀ x y, i.op.intRelation? x y = some (holds x y)) (ha : l.arg i 0 = .ok a) (hb : l.arg i 1 = .ok b)
    (hn : n ∈ ScalarKind.int.widths) (helem : a.elem = Ty.intElem n) :
    (Step.compute s i).on { lane := l.advanced, world := w } =
      (.ok (.value id ((Variable.zeroed (i.resultName id) i.ty).fill fun c =>
        wordOf (.ofBool (holds (lowBits n (a.get c)) (lowBits n (b.get c)))))),
        { lane := l.advanced, world := w }) := by
  obtain ⟨h0, hn64⟩ := ScalarKind.le_of_mem_widths hn
  have hbits : a.elem.bits = n := by
    rw [helem]
    exact ScalarKind.bits_elem hn
  have hcomp : ∀ c, (if a.elem.isFloat then
        i.op.floatHolds? ((a.elem.decode (a.get c)).order? (b.elem.decode (b.get c)))
      else i.op.intHolds? a.elem.bits (a.get c) (b.get c)).map (fun h => if h then 1 else 0) =
      some (wordOf (.ofBool (holds (lowBits n (a.get c)) (lowBits n (b.get c))))) := by
    intro c
    rw [if_neg (helem ▸ ScalarKind.isFloat_intElem n), hbits, Opcode.intHolds?_eq h0 hn64, hop]
    cases holds (lowBits n (a.get c)) (lowBits n (b.get c)) <;> rfl
  rw [Step.on_compute_compare (compares_of_intRelation? hop)]
  refine congrArg (·, _) ?_
  show l.compare i = _
  unfold Lane.compare
  rw [hblank, ha, hb]
  show (Variable.fillOr _ _ _ >>= _ : Except Fault Effect) = _
  rw [Variable.fillOr_of_forall hcomp]
  rfl

theorem compute_widthCast {m : Nat} {count : Option Nat} {a : Variable} {cast : BitVec m → BitVec n}
    (hblank : i.blank = .ok (id, .zeroed (i.resultName id) i.ty)) (hcasts : i.op.Casts .int m .int n)
    (hop : ∀ x, i.op.widthCast? n x = some (cast x)) (hty : i.ty.Numbers .int n count) (ha : l.arg i 0 = .ok a)
    (hm : m ∈ ScalarKind.int.widths) (helem : a.elem = Ty.intElem m) :
    (Step.compute s i).on { lane := l.advanced, world := w } =
      (.ok (.value id ((Variable.zeroed (i.resultName id) i.ty).fill fun c =>
        wordOf (cast (lowBits m (a.get c))))), { lane := l.advanced, world := w }) := by
  obtain ⟨h0, -⟩ := ScalarKind.le_of_mem_widths hm
  obtain ⟨-, hn⟩ := ScalarKind.le_of_mem_widths hty.bits_mem
  have hsrc : a.elem.bits = m := by
    rw [helem]
    exact ScalarKind.bits_elem hm
  have hdst : (Variable.zeroed (i.resultName id) i.ty).elem.bits = n := by
    rw [((Variable.hasType_zeroed _ _).numbers hty).1]
    exact ScalarKind.bits_elem hty.bits_mem
  have hcomp : ∀ c, castComp? i.op a.elem (Variable.zeroed (i.resultName id) i.ty).elem (a.get c) =
      some (wordOf (cast (lowBits m (a.get c)))) := by
    intro c
    rw [castComp?_eq hcasts hsrc hdst h0 hn, hop]
    rfl
  have hne : i.op ≠ .bitcast := by
    rintro heq
    rw [heq] at hcasts
    cases hcasts
  rw [Step.on_compute_cast hcasts]
  refine congrArg (·, _) ?_
  show l.cast i = _
  unfold Lane.cast
  rw [hblank, ha]
  show (if i.op = .bitcast then _ else _ : Except Fault Effect) = _
  rw [if_neg hne, Variable.fillOr_of_forall hcomp]
  rfl

/-- The instruction gives what it is meant to compute. -/
theorem Calculates.compute (h : l.Calculates i n f) (hblank : i.blank = .ok (id, .zeroed (i.resultName id) i.ty)) :
    (Step.compute s i).on { lane := l.advanced, world := w } =
      (.ok (.value id ((Variable.zeroed (i.resultName id) i.ty).fill fun c => wordOf (f c))),
        { lane := l.advanced, world := w }) := by
  cases h with
  | arithmetic hop hty ha hb => exact compute_intResult hblank hop hty ha hb
  | comparison hop _ ha hb hn helem => exact compute_intRelation hblank hop ha hb hn helem
  | cast hcasts hop hty ha hm helem => exact compute_widthCast hblank hcasts hop hty ha hm helem

/-- A step that is meant to compute integers succeeds, and assigns just these. -/
theorem step_of_calculates (h : l.AboutTo s.program s.analyses i id) (hcalc : l.Calculates i n f)
    (hcount : i.ty.elementCount ≤ 16) :
    (∃ state, (l.step s w).result = .ok state) ∧ (l.step s w).world = w ∧
      ∃ r : Variable, (l.step s w).lane.value? = Function.update l.value? id (some r) ∧ r.HasType i.ty ∧
        ∀ c < i.ty.elementCount, r.get c = wordOf (f c) := by
  obtain ⟨count, hty⟩ := hcalc.numbers
  obtain ⟨h0, hn⟩ := ScalarKind.le_of_mem_widths hty.bits_mem
  have hzero := Variable.hasType_zeroed (i.resultName id) i.ty
  obtain ⟨helem, hcomps, -⟩ := hzero.numbers hty
  obtain ⟨hok, hworld, hvalue⟩ := h.step (w := w) (hcalc.compute h.blank)
  rw [Instr.assigned_of_not_isFloat (v := .fill _ _) (helem ▸ ScalarKind.isFloat_intElem n)] at hvalue
  refine ⟨hok, hworld, _, hvalue, hzero.fill fun c _ _ => ?_, fun c hc => ?_⟩
  · rw [helem, toNat_wordOf hn]
    exact Nat.lt_of_lt_of_le (f c).isLt (ScalarKind.two_pow_le hty.bits_mem)
  · rw [Variable.get_fill _ _ (by rw [hcomps, hty.compCount_eq hcount]; exact hc), if_pos (by omega)]

/-- Every operation on integers gives what it means, at any width from one bit to sixty-four: the least number
    divided by minus one is itself, with no remainder. A step that is meant to compute integers succeeds and
    assigns just these. -/
theorem integers_as_meant (h : l.AboutTo s.program s.analyses i id) (hcalc : l.Calculates i n f)
    (hcount : i.ty.elementCount ≤ 16) :
    (∀ (op : IntOp) (bits : Nat) (a b : UInt64), 0 < bits → bits ≤ 64 →
      op.apply bits a b = wordOf (op.meaning (lowBits bits a) (lowBits bits b))) ∧
    (∀ bits : Nat, 0 < bits → IntOp.sDiv.meaning (.intMin bits) (-1) = .intMin bits ∧
      IntOp.sRem.meaning (.intMin bits) (-1) = 0) ∧
    (∃ state, (l.step s w).result = .ok state) ∧ (l.step s w).world = w ∧
      ∃ r : Variable, (l.step s w).lane.value? = Function.update l.value? id (some r) ∧ r.HasType i.ty ∧
        ∀ c < i.ty.elementCount, r.get c = wordOf (f c) :=
  ⟨fun op _ a b h0 hn => op.apply_eq h0 hn a b, fun _ h0 => IntOp.meaning_intMin h0,
    step_of_calculates h hcalc hcount⟩

/-- Instructions on constants: quotients of two pairs of bytes, a difference, a shift to the right, a comparison and a
    cast. -/
def integerInstrs : List Instr := [
  { op := .sDiv, ty := .vector (.int 8) 2, result := some ⟨0⟩,
    args := [.const (.vector [.int 8 0x80, .int 8 7]), .const (.vector [.int 8 0xff, .int 8 0])] },
  { op := .sub, ty := .int 16, result := some ⟨1⟩, args := [.const (.int 16 5), .const (.int 16 7)] },
  { op := .arithShiftRight, ty := .int 32, result := some ⟨2⟩,
    args := [.const (.int 32 0x80000000), .const (.int 32 36)] },
  { op := .sLess, ty := .int 1, result := some ⟨3⟩,
    args := [.const (.int 64 0xffffffffffffffff), .const (.int 64 0)] },
  { op := .sExt, ty := .int 32, result := some ⟨4⟩, args := [.const (.int 8 0x80)] }]

/-- The program of these instructions. -/
def integerProgram : Program :=
  { stage := .compute
    functions := #[{
      name := "integers"
      blocks := #[{}]
      instrs := (integerInstrs ++ [({ op := .ret } : Instr)]).toArray }]
    idCount := 5 }

/-- A session of one lane executes an instruction with the number `k`, which gives components. -/
def GivesAt (s₀ : Session) (k : Nat) (words : List UInt64) : Prop :=
  ∃ (i : Instr) (s : Session) (l : Lane) (r : Variable), integerInstrs[k]? = some i ∧
    s₀.start.session.advance .unbound k = .ok s ∧ s.lanes[0]? = some l ∧ l.AboutTo s.program s.analyses i ⟨k⟩ ∧
    (l.step (s.setting .unbound 0) s.world).lane.value? ⟨k⟩ = some r ∧ ∀ c (hc : c < words.length), r.get c = words[c]

/-- The least byte divided by minus one is itself, and seven by zero has every bit; a difference wraps around; a shift
    by 36 is one by four and keeps the sign; minus one is less than zero; and a byte is extended by its sign. -/
theorem integerProgram_computes :
    ∃ s₀, Session.new integerProgram {} {} [{}] 0 {} = .ok s₀ ∧ GivesAt s₀ 0 [0x80, 0xff] ∧ GivesAt s₀ 1 [0xfffe] ∧
      GivesAt s₀ 2 [0xf8000000] ∧ GivesAt s₀ 3 [1] ∧ GivesAt s₀ 4 [0xffffff80] := by
  have h : ∃ s₀, Session.new integerProgram {} {} [{}] 0 {} = .ok s₀ ∧ ∃ states, s₀.start.result = .ok states ∧
      ∀ k < 5, ∃ s, s₀.start.session.advance .unbound k = .ok s ∧ ∃ l, s.lanes[0]? = some l ∧
        ((¬ l.isFinished ∧ l.hasPlace ⟨k⟩) ∧ (s.analyses.of? l.function).isSome ∧ l.function = 0 ∧ l.instr = k) := by
    decide +kernel
  obtain ⟨s₀, hnew, states, hstart, hrun⟩ := h
  have hgives : ∀ {k i n} {f : Nat → BitVec n} {words : List UInt64}, integerInstrs[k]? = some i →
      i.result = some ⟨k⟩ → k < 5 → (∀ l : Lane, l.Calculates i n f) → i.ty.elementCount = words.length →
      words.length ≤ 16 → (∀ c (hc : c < words.length), wordOf (f c) = words[c]) → GivesAt s₀ k words := by
    intro k i n f words hi hid hk hcalc hcount hle hwords
    obtain ⟨s, hs, l, hl, hready, hanalysis, hfunction, hinstr⟩ := hrun k hk
    have hprogram : s.program = integerProgram :=
      ((Session.Reached.started hstart).advance hs).program_eq.trans (Session.fresh_of_new hnew).program
    have hat : l.AboutTo s.program s.analyses i ⟨k⟩ := by
      refine .of_program hprogram hready hanalysis hfunction hinstr ?_ hid
      have hk' := (List.getElem?_eq_some_iff.1 hi).1
      show (integerInstrs ++ [_]).toArray[k]? = _
      rw [List.getElem?_toArray, List.getElem?_append_left hk', hi]
    obtain ⟨-, -, -, -, r, hr, -, hget⟩ := integers_as_meant (s := s.setting .unbound 0) (w := s.world) hat (hcalc l)
      (hcount ▸ hle)
    refine ⟨i, s, l, r, hi, hs, hl, hat, by rw [hr, Function.update_self], fun c hc => ?_⟩
    rw [hget c (hcount ▸ hc), hwords c hc]
  refine ⟨s₀, hnew, ?_, ?_, ?_, ?_, ?_⟩
  · refine hgives (n := 8) rfl rfl (by decide) (fun l => .arithmetic (fun _ _ => rfl) (.vector (by decide)) rfl rfl) rfl
      (by decide) (by decide)
  · refine hgives (n := 16) rfl rfl (by decide) (fun l => .arithmetic (fun _ _ => rfl) (.one (by decide)) rfl rfl) rfl
      (by decide) (by decide)
  · refine hgives (n := 32) rfl rfl (by decide) (fun l => .arithmetic (fun _ _ => rfl) (.one (by decide)) rfl rfl) rfl
      (by decide) (by decide)
  · refine hgives (n := 1) rfl rfl (by decide)
      (fun l => .comparison (fun _ _ => rfl) (.one (by decide)) rfl rfl (n := 64) (by decide) rfl) rfl (by decide)
      (by decide)
  · refine hgives (n := 32) rfl rfl (by decide)
      (fun l => .cast (m := 8) (.sExt (by decide)) (fun _ => rfl) (.one (by decide)) rfl (by decide) rfl) rfl
      (by decide) (by decide)

end Lane

end Lockstep
