import Lockstep.Exec.Math
import Lockstep.Proofs.Integer
import Mathlib.Order.Bounds.Basic

set_option autoImplicit false

/-! # What the intrinsics on bits compute

A search gives the least of the positions where a number has the bit that is looked for, a reversal the number
with its bits in opposite order, and a count the number of set bits (`Intrinsic.IsAnswer`). Reversals and counts
work on a number as wide as it is, but the searches see 32 bits of it, and no position or all ones of more than
32 bits come of them (`Intrinsic.onBits?_spec`). This gives the answer for the number itself where these 32 bits
decide it (`Intrinsic.Reaches`). -/

namespace Lockstep

variable {n m : Nat}

/-- The word of `m` bits that holds the least of some positions, or all ones when there are none. -/
def IsFirst (positions : Set Nat) (m : Nat) (r : UInt64) : Prop :=
  (∃ p, IsLeast positions p ∧ r = wordOf (BitVec.ofNat m p)) ∨ positions = ∅ ∧ r = wordOf (.allOnes m)

namespace Intrinsic

/-- Whether the intrinsic looks for a bit. -/
def searches : Intrinsic → Bool
  | .firstbitLo | .firstbitHi | .firstbitSHi => true
  | _ => false

/-- The answer of an intrinsic on the bits of a number, as a word of `m` bits. Positions of high bits are counted
    down from the highest one, and the signed search looks for the first bit that differs from the sign. -/
def IsAnswer (op : Intrinsic) (x : BitVec n) (m : Nat) (r : UInt64) : Prop :=
  match op with
  | .firstbitLo => IsFirst {p | x.getLsbD p} m r
  | .firstbitHi => IsFirst {p | x.getMsbD p} m r
  | .firstbitSHi => IsFirst {p | (if x.msb then ~~~x else x).getMsbD p} m r
  | .bfrev => r = wordOf (x.reverse.setWidth m)
  | .countbits => r = wordOf (BitVec.ofNat m ((List.range n).countP x.getLsbD))
  | _ => False

/-- The 32 bits that a search sees of a number. -/
def seen (op : Intrinsic) (x : BitVec n) : BitVec 32 :=
  if op = .firstbitSHi then x.signExtend 32 else x.setWidth 32

/-- The 32 bits that a search sees decide its answer for the whole number, in `m` bits. -/
def Reaches (op : Intrinsic) (x : BitVec n) (m : Nat) : Prop :=
  match op with
  | .firstbitLo => x.setWidth 32 = 0 → x = 0 ∧ m ≤ 32
  | .firstbitHi | .firstbitSHi => n = 32 ∧ m ≤ 32
  | _ => True

end Intrinsic

/-! ## Words -/

theorem and_mask_wordOf (hn : n ≤ 64) (x : BitVec n) (m : Nat) : wordOf x &&& mask m = wordOf (x.setWidth m) := by
  rw [← wordOf_lowBits]
  exact congrArg wordOf (BitVec.setWidth_setWidth (by omega))

theorem wordOf_ofNat {p : Nat} (hp : p < 2 ^ 64) (m : Nat) : wordOf (BitVec.ofNat m p) = p.toUInt64 &&& mask m := by
  rw [← wordOf_lowBits]
  refine congrArg wordOf (BitVec.eq_of_toNat_eq ?_)
  rw [toNat_lowBits, BitVec.toNat_ofNat]
  exact congrArg (· % 2 ^ m) (Nat.mod_eq_of_lt hp).symm

theorem and_mask_of_lt {w : UInt64} {n : Nat} (h : w.toNat < 2 ^ n) : w &&& mask n = w :=
  UInt64.toNat_inj.1 ((toNat_and_mask w n).trans (Nat.mod_eq_of_lt h))

theorem setWidth_allOnes (hm : m ≤ n) : (BitVec.allOnes n).setWidth m = .allOnes m := by
  refine BitVec.eq_of_getLsbD_eq fun i hi => ?_
  simp only [BitVec.getLsbD_setWidth, BitVec.getLsbD_allOnes, hi, Nat.lt_of_lt_of_le hi hm, decide_true, Bool.and_self]

theorem toBitVec_toUInt32_wordOf (x : BitVec n) : (wordOf x).toUInt32.toBitVec = x.setWidth 32 := by
  show (x.setWidth 64).setWidth 32 = _
  rw [BitVec.setWidth_setWidth (by omega)]

theorem toBitVec_toUInt32_signExtend (h0 : 0 < n) (w : UInt64) :
    (signExtend w n).toUInt64.toUInt32.toBitVec = (lowBits n w).signExtend 32 := by
  show (signExtend w n).toBitVec.setWidth 32 = _
  rw [toBitVec_signExtend w h0]
  refine BitVec.eq_of_getLsbD_eq fun i hi => ?_
  simp only [BitVec.getLsbD_setWidth, BitVec.getLsbD_signExtend, hi, show i < 64 by omega, decide_true, Bool.true_and]

theorem toInt32_lt_zero (w : UInt32) : w.toInt32 < 0 ↔ w.toBitVec.msb := by
  rw [Int32.lt_iff_toInt_lt, BitVec.msb_eq_toInt, decide_eq_true_iff]
  rfl

/-! ## Searches -/

theorem isLeast_of_forall_lt {test : Nat → Bool} {p : Nat} (hp : test p) (h : ∀ q < p, ¬ test q) :
    IsLeast {p | test p} p :=
  ⟨hp, fun _ hq => Nat.le_of_not_lt fun hlt => h _ hlt hq⟩

/-- The first position of a range that a test accepts is the least that it accepts. -/
theorem isFirst_find? {positions : Set Nat} {test : Nat → Bool} (h : ∀ p, p ∈ positions ↔ p < 32 ∧ test p) :
    IsFirst positions 32 (Intrinsic.positionBits ((List.range 32).find? test)) := by
  cases hfound : (List.range 32).find? test with
  | none =>
      refine .inr ⟨Set.eq_empty_iff_forall_notMem.2 fun p hp => ?_, by decide⟩
      obtain ⟨hlt, htest⟩ := (h p).1 hp
      exact List.find?_eq_none.1 hfound p (List.mem_range.2 hlt) htest
  | some p =>
      obtain ⟨hp, hrange, hleast⟩ := List.find?_range_eq_some.1 hfound
      have hlt : p < 32 := List.mem_range.1 hrange
      refine .inl ⟨p, ⟨(h p).2 ⟨hlt, hp⟩, fun q hq => ?_⟩, ?_⟩
      · refine Nat.le_of_not_lt fun hqp => ?_
        have hno := hleast q hqp
        rw [((h q).1 hq).2] at hno
        cases hno
      · rw [wordOf_ofNat (by omega), and_mask_of_lt]
        · rfl
        · exact Nat.lt_of_le_of_lt (Nat.mod_le ..) (by omega)

theorem isFirst_lowestBit? (w : UInt32) :
    IsFirst {p | w.toBitVec.getLsbD p} 32 (Intrinsic.positionBits (lowestBit? w)) :=
  isFirst_find? fun _ => ⟨fun h => ⟨BitVec.lt_of_getLsbD h, h⟩, And.right⟩

theorem isFirst_highestBit? (w : UInt32) :
    IsFirst {p | w.toBitVec.getMsbD p} 32 (Intrinsic.positionBits (highestBit? w)) := by
  refine isFirst_find? fun p => ?_
  show w.toBitVec.getMsbD p = true ↔ p < 32 ∧ w.toBitVec.getLsbD (31 - p) = true
  rw [BitVec.getMsbD_eq_getLsbD, Bool.and_eq_true, decide_eq_true_iff]

theorem IsFirst.eq_of_isLeast {positions : Set Nat} {r : UInt64} {p : Nat} (h : IsFirst positions m r)
    (hp : IsLeast positions p) : r = wordOf (BitVec.ofNat m p) := by
  rcases h with ⟨q, hq, rfl⟩ | ⟨rfl, -⟩
  · rw [hq.unique hp]
  · exact absurd hp.1 (Set.notMem_empty p)

/-- What is found in 32 bits is cut to the width of the result. -/
theorem IsFirst.cut {positions : Set Nat} {r : UInt64} (h : IsFirst positions 32 r) (hm : positions = ∅ → m ≤ 32)
    (hlt : ∀ p ∈ positions, p < 32) : IsFirst positions m (r &&& mask m) := by
  rcases h with ⟨p, hp, rfl⟩ | ⟨hempty, rfl⟩
  · have hsmall := hlt p hp.1
    have hword : p.toUInt64 &&& mask 32 = p.toUInt64 :=
      and_mask_of_lt (Nat.lt_of_le_of_lt (Nat.mod_le ..) (by omega))
    exact .inl ⟨p, hp, by rw [wordOf_ofNat (by omega), wordOf_ofNat (by omega), hword]⟩
  · refine .inr ⟨hempty, ?_⟩
    rw [and_mask_wordOf (by decide), setWidth_allOnes (hm hempty)]

/-! ## Reversals and counts -/

/-- What is collected in a word has the bits of all the words that were put in. -/
theorem getLsbD_foldl_or (positions : List Nat) (test : Nat → Bool) (bit : Nat → UInt64) (acc : UInt64) (j : Nat) :
    (positions.foldl (fun acc i => if test i then acc ||| bit i else acc) acc).toBitVec.getLsbD j =
      (acc.toBitVec.getLsbD j || positions.any fun i => test i && (bit i).toBitVec.getLsbD j) := by
  induction positions generalizing acc with
  | nil => exact (Bool.or_false _).symm
  | cons i rest ih =>
      rw [List.foldl_cons, ih, List.any_cons]
      cases test i with
      | false => rfl
      | true =>
          rw [if_pos rfl, UInt64.toBitVec_or, BitVec.getLsbD_or, Bool.or_assoc, Bool.true_and]

theorem getLsbD_one_shiftLeft {k : Nat} (hk : k < 64) (j : Nat) :
    ((1 : UInt64) <<< k.toUInt64).toBitVec.getLsbD j = decide (j = k) := by
  have hword : ((1 : UInt64) <<< k.toUInt64).toBitVec = 1#64 <<< k :=
    (congrArg UInt64.toBitVec (UInt64.ofBitVec_shiftLeft 1#64 k hk)).symm
  rw [hword, ← BitVec.twoPow_eq, BitVec.getLsbD_twoPow]
  by_cases hj : j = k
  · rw [hj]
    simp [hk]
  · simp [hj, Ne.symm hj]

theorem reverseBits_eq (hn : n ≤ 64) (v : UInt64) : reverseBits v n = wordOf (lowBits n v).reverse := by
  refine UInt64.toBitVec_inj.1 (BitVec.eq_of_getLsbD_eq fun j hj => ?_)
  show _ = ((lowBits n v).reverse.setWidth 64).getLsbD j
  rw [reverseBits, getLsbD_foldl_or, BitVec.getLsbD_setWidth, BitVec.getLsbD_reverse, BitVec.getMsbD_eq_getLsbD,
    decide_eq_true hj, Bool.true_and, lowBits, BitVec.getLsbD_setWidth, Nat.min_eq_left hn]
  have hzero : (0 : UInt64).toBitVec.getLsbD j = false := BitVec.getLsbD_zero
  rw [hzero, Bool.false_or, Bool.eq_iff_iff, List.any_eq_true]
  simp only [List.mem_range, Bool.and_eq_true, decide_eq_true_eq]
  constructor
  · rintro ⟨i, hi, htest, hbit⟩
    rw [getLsbD_one_shiftLeft (by omega), decide_eq_true_iff] at hbit
    obtain rfl : i = n - 1 - j := by omega
    exact ⟨by omega, by omega, htest⟩
  · rintro ⟨hjn, -, htest⟩
    refine ⟨n - 1 - j, by omega, htest, ?_⟩
    rw [getLsbD_one_shiftLeft (by omega), decide_eq_true_iff]
    omega

theorem countOnes_wordOf (hn : n ≤ 64) (x : BitVec n) :
    countOnes (wordOf x) = (List.range n).countP x.getLsbD := by
  have hbit : ∀ i, (wordOf x).toNat.testBit i = x.getLsbD i := fun i => by
    rw [toNat_wordOf hn]
    rfl
  rw [countOnes, ← List.countP_eq_length_filter]
  simp only [hbit]
  obtain ⟨k, hk⟩ := Nat.exists_eq_add_of_le hn
  rw [hk, List.range_add, List.countP_append, List.countP_map]
  refine Nat.add_eq_left.2 (List.countP_eq_zero.2 fun i _ => ?_)
  rw [Function.comp_apply, BitVec.getLsbD_of_ge _ _ (by omega)]
  exact Bool.false_ne_true

/-! ## Intrinsics -/

namespace Intrinsic

variable {op : Intrinsic} {fn : Nat → UInt64 → UInt64}

/-- A search gives the answer for the 32 bits that it sees. -/
theorem isAnswer_seen (hop : op.onBits? = some fn) (hsearch : op.searches) (h0 : 0 < n) (hn : n ≤ 64) (x : BitVec n) :
    op.IsAnswer (op.seen x) 32 (fn n (wordOf x)) := by
  cases op <;> cases hsearch <;> cases hop
  case firstbitLo =>
      have h := isFirst_lowestBit? (wordOf x).toUInt32
      rw [toBitVec_toUInt32_wordOf] at h
      exact h
  case firstbitHi =>
      have h := isFirst_highestBit? (wordOf x).toUInt32
      rw [toBitVec_toUInt32_wordOf] at h
      exact h
  case firstbitSHi =>
      have hseen := toBitVec_toUInt32_signExtend h0 (wordOf x)
      rw [lowBits_wordOf hn] at hseen
      have h := isFirst_highestBit? (if (signExtend (wordOf x) n).toUInt64.toUInt32.toInt32 < 0 then
        ~~~(signExtend (wordOf x) n).toUInt64.toUInt32 else (signExtend (wordOf x) n).toUInt64.toUInt32)
      simp only [toInt32_lt_zero, apply_ite UInt32.toBitVec, UInt32.toBitVec_not, hseen] at h
      simp only [toInt32_lt_zero, hseen]
      exact h

theorem eq_zero_of_no_bit {x : BitVec n} (h : {p | x.getLsbD p} = (∅ : Set Nat)) : x = 0 := by
  refine BitVec.eq_of_getLsbD_eq fun i _ => ?_
  have hi : ¬ x.getLsbD i := Set.eq_empty_iff_forall_notMem.1 h i
  exact (Bool.eq_false_iff.2 hi).trans BitVec.getLsbD_zero.symm

/-- The lowest bit of 32 is the lowest of all, if there is one. -/
theorem isFirst_of_setWidth {x : BitVec n} {r : UInt64} (h : IsFirst {p | (x.setWidth 32).getLsbD p} m r)
    (hx : x.setWidth 32 = 0 → x = 0) : IsFirst {p | x.getLsbD p} m r := by
  have hmem : ∀ p, (x.setWidth 32).getLsbD p = true ↔ p < 32 ∧ x.getLsbD p = true := fun p => by
    rw [BitVec.getLsbD_setWidth, Bool.and_eq_true, decide_eq_true_iff]
  rcases h with ⟨p, ⟨hp, hleast⟩, hr⟩ | ⟨hempty, hr⟩
  · obtain ⟨hlt, hxp⟩ := (hmem p).1 hp
    refine .inl ⟨p, ⟨hxp, fun q hq => Nat.le_of_not_lt fun hqp => ?_⟩, hr⟩
    exact absurd (hleast ((hmem q).2 ⟨Nat.lt_trans hqp hlt, hq⟩)) (Nat.not_le_of_lt hqp)
  · refine .inr ⟨Set.eq_empty_iff_forall_notMem.2 fun p hp => ?_, hr⟩
    have hbit : x.getLsbD p = true := hp
    rw [hx (eq_zero_of_no_bit hempty)] at hbit
    cases BitVec.getLsbD_zero.symm.trans hbit

/-- What the intrinsics on bits make of a number, cut to the width of the result, is the answer for that number if
    the bits that they see decide it. -/
theorem isAnswer_of_reaches (hop : op.onBits? = some fn) (h0 : 0 < n) (hn : n ≤ 64) {x : BitVec n}
    (h : op.Reaches x m) : op.IsAnswer x m (fn n (wordOf x) &&& mask m) := by
  have hcount : (List.range n).countP x.getLsbD < 2 ^ 64 := by
    have hle : (List.range n).countP x.getLsbD ≤ (List.range n).length := List.countP_le_length
    rw [List.length_range] at hle
    omega
  cases op with
  | firstbitLo =>
      have hseen : IsFirst {p | (x.setWidth 32).getLsbD p} 32 (fn n (wordOf x)) := isAnswer_seen hop rfl h0 hn x
      have hcut := hseen.cut (fun hempty => (h (eq_zero_of_no_bit hempty)).2) fun _ => BitVec.lt_of_getLsbD
      exact isFirst_of_setWidth hcut fun hx => (h hx).1
  | firstbitHi =>
      obtain ⟨rfl, hm⟩ := h
      have hseen : IsFirst {p | (x.setWidth 32).getMsbD p} 32 (fn 32 (wordOf x)) := isAnswer_seen hop rfl h0 hn x
      rw [BitVec.setWidth_eq] at hseen
      exact hseen.cut (fun _ => hm) fun _ => BitVec.lt_of_getMsbD
  | firstbitSHi =>
      obtain ⟨rfl, hm⟩ := h
      have hseen := isAnswer_seen hop rfl h0 hn x
      rw [seen, if_pos rfl, BitVec.signExtend_eq] at hseen
      exact IsFirst.cut hseen (fun _ => hm) fun _ => BitVec.lt_of_getMsbD
  | bfrev =>
      cases hop
      show reverseBits (wordOf x) n &&& mask m = _
      rw [reverseBits_eq hn, lowBits_wordOf hn, and_mask_wordOf hn]
  | countbits =>
      cases hop
      show (countOnes (wordOf x)).toUInt64 &&& mask m = _
      rw [countOnes_wordOf hn, wordOf_ofNat hcount]
  | _ => cases hop

end Intrinsic

end Lockstep
