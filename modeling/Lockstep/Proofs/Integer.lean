import Lockstep.Exec.Number
import Lockstep.Proofs.Width

set_option autoImplicit false

/-! # What integer operations compute

A component holds an integer in the low bits of a word. The operations on components and the comparisons give
what the two's-complement operations on bit vectors give of these integers, at every width from one bit to
sixty-four (`IntOp.apply_eq`, `Opcode.intHolds?_eq`). Bits above the width do not count. -/

namespace Lockstep

/-! ## Words and numbers -/

/-- The number in the low bits of a word. -/
def lowBits (n : Nat) (w : UInt64) : BitVec n := w.toBitVec.setWidth n

/-- The word that has a number in its low bits, and zeros above. -/
def wordOf {n : Nat} (x : BitVec n) : UInt64 := ⟨x.setWidth 64⟩

variable {n : Nat} {x y : BitVec n} {v w : UInt64}

theorem toNat_lowBits (n : Nat) (w : UInt64) : (lowBits n w).toNat = w.toNat % 2 ^ n := BitVec.toNat_setWidth ..

theorem toNat_and_mask (w : UInt64) (n : Nat) : (w &&& mask n).toNat = w.toNat % 2 ^ n := by
  rw [UInt64.toNat_and, toNat_mask, Nat.and_two_pow_sub_one_eq_mod]
  rcases Nat.le_total n 64 with h | h
  · rw [Nat.min_eq_left h]
  · rw [Nat.min_eq_right h, Nat.mod_eq_of_lt w.toNat_lt,
      Nat.mod_eq_of_lt (Nat.lt_of_lt_of_le w.toNat_lt (Nat.pow_le_pow_right (by decide) h))]

/-- To cut a word is to keep the number in its low bits. -/
theorem wordOf_lowBits (n : Nat) (w : UInt64) : wordOf (lowBits n w) = w &&& mask n := by
  refine UInt64.toNat_inj.1 ?_
  rw [toNat_and_mask]
  show ((w.toBitVec.setWidth n).setWidth 64).toNat = _
  rw [BitVec.toNat_setWidth, BitVec.toNat_setWidth]
  exact Nat.mod_eq_of_lt (Nat.lt_of_le_of_lt (Nat.mod_le ..) w.toNat_lt)

theorem lowBits_and (v w : UInt64) : lowBits n (v &&& w) = lowBits n v &&& lowBits n w := BitVec.setWidth_and

theorem lowBits_or (v w : UInt64) : lowBits n (v ||| w) = lowBits n v ||| lowBits n w := BitVec.setWidth_or

theorem lowBits_xor (v w : UInt64) : lowBits n (v ^^^ w) = lowBits n v ^^^ lowBits n w := BitVec.setWidth_xor

section

variable (hn : n ≤ 64)
include hn

theorem toNat_wordOf : (wordOf x).toNat = x.toNat := BitVec.toNat_setWidth_of_le hn

theorem lowBits_wordOf : lowBits n (wordOf x) = x := by
  refine BitVec.eq_of_toNat_eq ?_
  rw [toNat_lowBits, toNat_wordOf hn, Nat.mod_eq_of_lt x.isLt]

theorem wordOf_inj : wordOf x = wordOf y ↔ x = y := by
  rw [← UInt64.toNat_inj, toNat_wordOf hn, toNat_wordOf hn, BitVec.toNat_inj]

theorem wordOf_eq_zero : wordOf x = 0 ↔ x = 0 := by
  rw [← UInt64.toNat_inj, toNat_wordOf hn, ← BitVec.toNat_inj]
  rfl

theorem wordOf_lt : wordOf x < wordOf y ↔ x < y := by
  rw [UInt64.lt_iff_toNat_lt, toNat_wordOf hn, toNat_wordOf hn, BitVec.lt_def]

theorem wordOf_le : wordOf x ≤ wordOf y ↔ x ≤ y := by
  rw [UInt64.le_iff_toNat_le, toNat_wordOf hn, toNat_wordOf hn, BitVec.le_def]

theorem lowBits_add (v w : UInt64) : lowBits n (v + w) = lowBits n v + lowBits n w := BitVec.setWidth_add _ _ hn

theorem lowBits_sub (v w : UInt64) : lowBits n (v - w) = lowBits n v - lowBits n w := by
  show (v.toBitVec - w.toBitVec).setWidth n = _
  rw [BitVec.sub_eq_add_neg, BitVec.setWidth_add _ _ hn, BitVec.setWidth_neg_of_le hn, ← BitVec.sub_eq_add_neg]
  rfl

theorem lowBits_mul (v w : UInt64) : lowBits n (v * w) = lowBits n v * lowBits n w := BitVec.setWidth_mul _ _ hn

theorem wordOf_div : wordOf (x / y) = wordOf x / wordOf y := by
  refine UInt64.toNat_inj.1 ?_
  rw [UInt64.toNat_div, toNat_wordOf hn, toNat_wordOf hn, toNat_wordOf hn, BitVec.toNat_udiv]

theorem wordOf_mod : wordOf (x % y) = wordOf x % wordOf y := by
  refine UInt64.toNat_inj.1 ?_
  rw [UInt64.toNat_mod, toNat_wordOf hn, toNat_wordOf hn, toNat_wordOf hn, BitVec.toNat_umod]

theorem lowBits_mask_64 : lowBits n (mask 64) = .allOnes n := by
  refine BitVec.eq_of_getLsbD_eq fun i hi => ?_
  show (BitVec.setWidth n (.allOnes 64)).getLsbD i = _
  simp only [BitVec.getLsbD_setWidth, BitVec.getLsbD_allOnes, hi, decide_true, Bool.true_and, decide_eq_true_eq]
  exact Nat.lt_of_lt_of_le hi hn

/-- The low bits of a signed word. -/
theorem lowBits_toUInt64 (z : Int64) : lowBits n z.toUInt64 = BitVec.ofInt n z.toInt := by
  refine BitVec.eq_of_toInt_eq ?_
  rw [BitVec.toInt_ofInt, ← Int64.toInt_toBitVec, BitVec.toInt_eq_toNat_bmod z.toBitVec, Int.bmod_bmod_of_dvd]
  · exact BitVec.toInt_setWidth ..
  · exact_mod_cast Nat.pow_dvd_pow 2 hn

/-- A number that was reduced to a word has the same low bits. -/
theorem ofInt_bmod_two_pow (z : Int) : BitVec.ofInt n (z.bmod (2 ^ 64)) = BitVec.ofInt n z := by
  refine BitVec.eq_of_toInt_eq ?_
  rw [BitVec.toInt_ofInt, BitVec.toInt_ofInt, Int.bmod_bmod_of_dvd]
  exact_mod_cast Nat.pow_dvd_pow 2 hn

end

/-! ## Signs -/

theorem toNat_smod_64 : ∀ k : Fin 64, ((Int64.ofNat k.val).toBitVec.smod 64).toNat = k.val := by
  decide +kernel

/-- A word is extended by the sign of the number in its low bits; the bits above that do not count. -/
theorem toBitVec_signExtend (w : UInt64) (h : 0 < n) :
    (signExtend w n).toBitVec = (lowBits n w).signExtend 64 := by
  unfold signExtend lowBits
  refine BitVec.eq_of_getLsbD_eq fun i hi => ?_
  simp only [BitVec.getLsbD_signExtend, BitVec.msb_eq_getLsbD_last, BitVec.getLsbD_setWidth, hi, decide_true,
    Bool.true_and, show n - 1 < n by omega]
  split
  · next hwide =>
      rw [if_pos (by omega), decide_eq_true (by omega), Bool.true_and]
      rfl
  · next hwide =>
      have hk : 64 - n < 64 := by omega
      have hshift : (w <<< (64 - n).toUInt64).toBitVec = w.toBitVec <<< (64 - n) :=
        (congrArg UInt64.toBitVec (UInt64.ofBitVec_shiftLeft w.toBitVec (64 - n) hk)).symm
      rw [Int64.toBitVec_shiftRight, BitVec.sshiftRight', toNat_smod_64 ⟨64 - n, hk⟩]
      show ((w <<< (64 - n).toUInt64).toBitVec.sshiftRight (64 - n)).getLsbD i = _
      rw [hshift, BitVec.getLsbD_sshiftRight, BitVec.msb_eq_getLsbD_last, BitVec.getLsbD_shiftLeft,
        BitVec.getLsbD_shiftLeft, show 64 - n + i - (64 - n) = i by omega, show 64 - 1 - (64 - n) = n - 1 by omega]
      by_cases hin : i < n
      · simp [hi, hin, show 64 - n + i < 64 by omega, show ¬ 64 ≤ i by omega]
      · simp [hi, hin, show ¬ 64 - n + i < 64 by omega, show ¬ 63 < 64 - n by omega]

section

variable (h0 : 0 < n) (hn : n ≤ 64)
include h0 hn

theorem toInt_signExtend_eq (w : UInt64) : (signExtend w n).toInt = (lowBits n w).toInt := by
  rw [← Int64.toInt_toBitVec, toBitVec_signExtend w h0, BitVec.toInt_signExtend_of_le hn]

theorem lowBits_signExtend (w : UInt64) : lowBits n (signExtend w n).toUInt64 = lowBits n w := by
  rw [lowBits_toUInt64 hn, toInt_signExtend_eq h0 hn, BitVec.ofInt_toInt]

theorem signExtend_eq_zero : signExtend w n = 0 ↔ lowBits n w = 0 := by
  have hzero : (0 : BitVec n).toInt = (0 : Int64).toInt := BitVec.toInt_zero
  rw [← Int64.toInt_inj, toInt_signExtend_eq h0 hn, ← hzero, BitVec.toInt_inj]

theorem signExtend_lt : signExtend v n < signExtend w n ↔ (lowBits n v).slt (lowBits n w) := by
  rw [Int64.lt_iff_toInt_lt, toInt_signExtend_eq h0 hn, toInt_signExtend_eq h0 hn, BitVec.slt_iff_toInt_lt]

theorem signExtend_le : signExtend v n ≤ signExtend w n ↔ (lowBits n v).sle (lowBits n w) := by
  rw [Int64.le_iff_toInt_le, toInt_signExtend_eq h0 hn, toInt_signExtend_eq h0 hn, BitVec.sle_iff_toInt_le]

theorem lowBits_signed_div (v w : UInt64) :
    lowBits n (signExtend v n / signExtend w n).toUInt64 = (lowBits n v).sdiv (lowBits n w) := by
  rw [lowBits_toUInt64 hn, Int64.toInt_div, ofInt_bmod_two_pow hn, toInt_signExtend_eq h0 hn,
    toInt_signExtend_eq h0 hn]
  exact BitVec.eq_of_toInt_eq (by rw [BitVec.toInt_ofInt, BitVec.toInt_sdiv])

theorem lowBits_signed_mod (v w : UInt64) :
    lowBits n (signExtend v n % signExtend w n).toUInt64 = (lowBits n v).srem (lowBits n w) := by
  rw [lowBits_toUInt64 hn, Int64.toInt_mod, toInt_signExtend_eq h0 hn, toInt_signExtend_eq h0 hn,
    ← BitVec.toInt_srem, BitVec.ofInt_toInt]

end

/-! ## Shifts -/

section

variable {s : UInt64} (hs : s.toNat < 64)
include hs

theorem lowBits_shiftLeft (hn : n ≤ 64) (w : UInt64) : lowBits n (w <<< s) = lowBits n w <<< s.toNat := by
  have hword : (w <<< s).toBitVec = w.toBitVec <<< s.toNat := by
    refine BitVec.eq_of_toNat_eq ?_
    rw [BitVec.toNat_shiftLeft, UInt64.toNat_toBitVec, UInt64.toNat_shiftLeft, Nat.mod_eq_of_lt hs]
    rfl
  rw [lowBits, hword, BitVec.setWidth_shiftLeft_of_le hn]
  rfl

theorem wordOf_shiftRight (hn : n ≤ 64) : wordOf (x >>> s.toNat) = wordOf x >>> s := by
  refine UInt64.toNat_inj.1 ?_
  rw [UInt64.toNat_shiftRight, toNat_wordOf hn, toNat_wordOf hn, BitVec.toNat_ushiftRight, Nat.mod_eq_of_lt hs]

theorem lowBits_signed_shiftRight (h0 : 0 < n) (hn : n ≤ 64) (w : UInt64) :
    lowBits n (signExtend w n >>> s.toInt64).toUInt64 = (lowBits n w).sshiftRight s.toNat := by
  have hamount : s.toInt64 = Int64.ofNat s.toNat := congrArg UInt64.toInt64 s.ofNat_toNat.symm
  rw [lowBits_toUInt64 hn, ← Int64.toInt_toBitVec, Int64.toBitVec_shiftRight, BitVec.sshiftRight', hamount,
    toNat_smod_64 ⟨s.toNat, hs⟩, BitVec.toInt_sshiftRight, Int64.toInt_toBitVec, toInt_signExtend_eq h0 hn,
    ← BitVec.toInt_sshiftRight, BitVec.ofInt_toInt]

end

/-! ## Operations -/

/-- What an operation computes of numbers of `n` bits. -/
def IntOp.meaning (op : IntOp) (x y : BitVec n) : BitVec n :=
  match op with
  | .add => x + y
  | .sub => x - y
  | .mul => x * y
  | .uDiv => if y = 0 then .allOnes n else x / y
  | .uRem => if y = 0 then .allOnes n else x % y
  | .sDiv => if y = 0 then .allOnes n else x.sdiv y
  | .sRem => if y = 0 then .allOnes n else x.srem y
  | .and => x &&& y
  | .or => x ||| y
  | .xor => x ^^^ y
  | .shl => x <<< (y.toNat % n)
  | .lShr => x >>> (y.toNat % n)
  | .aShr => x.sshiftRight (y.toNat % n)
  | .sMin => if y.slt x then y else x
  | .sMax => if x.slt y then y else x
  | .uMin => if y.ult x then y else x
  | .uMax => if x.ult y then y else x

section

variable (h0 : 0 < n) (hn : n ≤ 64)
include h0 hn

/-- Of words that hold numbers an operation gives a word with the number that it means. -/
theorem IntOp.lowBits_raw (op : IntOp) : lowBits n (op.raw n (wordOf x) (wordOf y)) = op.meaning x y := by
  have hx := lowBits_wordOf (x := x) hn
  have hy := lowBits_wordOf (x := y) hn
  obtain ⟨s, hs⟩ : ∃ s, (if n = 0 then 0 else wordOf y % n.toUInt64) = s := ⟨_, rfl⟩
  have hamount : s.toNat = y.toNat % n := by
    rw [← hs, if_neg (Nat.ne_of_gt h0), UInt64.toNat_mod, toNat_wordOf hn]
    exact congrArg (y.toNat % ·) (Nat.mod_eq_of_lt (by omega))
  have hlt : s.toNat < 64 := by
    rw [hamount]
    exact Nat.lt_of_lt_of_le (Nat.mod_lt _ h0) hn
  unfold raw meaning
  rw [hs]
  cases op with
  | add => exact (lowBits_add hn ..).trans (by rw [hx, hy])
  | sub => exact (lowBits_sub hn ..).trans (by rw [hx, hy])
  | mul => exact (lowBits_mul hn ..).trans (by rw [hx, hy])
  | and => exact (lowBits_and ..).trans (by rw [hx, hy])
  | or => exact (lowBits_or ..).trans (by rw [hx, hy])
  | xor => exact (lowBits_xor ..).trans (by rw [hx, hy])
  | uDiv =>
      simp only [wordOf_eq_zero hn, apply_ite (lowBits n), lowBits_mask_64 hn, ← wordOf_div hn, lowBits_wordOf hn]
  | uRem =>
      simp only [wordOf_eq_zero hn, apply_ite (lowBits n), lowBits_mask_64 hn, ← wordOf_mod hn, lowBits_wordOf hn]
  | sDiv =>
      simp only [signExtend_eq_zero h0 hn, apply_ite (lowBits n), lowBits_mask_64 hn, lowBits_signed_div h0 hn, hx,
        hy]
  | sRem =>
      simp only [signExtend_eq_zero h0 hn, apply_ite (lowBits n), lowBits_mask_64 hn, lowBits_signed_mod h0 hn, hx,
        hy]
  | shl =>
      show lowBits n (wordOf x <<< s) = x <<< (y.toNat % n)
      rw [lowBits_shiftLeft hlt hn, hx, hamount]
  | lShr =>
      show lowBits n (wordOf x >>> s) = x >>> (y.toNat % n)
      rw [← wordOf_shiftRight hlt hn, lowBits_wordOf hn, hamount]
  | aShr =>
      show lowBits n (signExtend (wordOf x) n >>> s.toInt64).toUInt64 = _
      rw [lowBits_signed_shiftRight hlt h0 hn, hx, hamount]
  | sMin | sMax =>
      simp only [signExtend_lt h0 hn, apply_ite Int64.toUInt64, apply_ite (lowBits n), lowBits_signExtend h0 hn, hx,
        hy]
  | uMin | uMax =>
      simp only [wordOf_lt hn, ← BitVec.ult_iff_lt, apply_ite (lowBits n), hx, hy]

theorem IntOp.apply_eq (op : IntOp) (a b : UInt64) :
    op.apply n a b = wordOf (op.meaning (lowBits n a) (lowBits n b)) := by
  rw [apply, ← wordOf_lowBits, ← wordOf_lowBits n a, ← wordOf_lowBits n b, op.lowBits_raw h0 hn]

end

/-- The least number divided by minus one is itself, with no remainder. -/
theorem IntOp.meaning_intMin (h0 : 0 < n) :
    IntOp.sDiv.meaning (.intMin n) (-1) = .intMin n ∧ IntOp.sRem.meaning (.intMin n) (-1) = 0 := by
  have hint : (-1 : BitVec n).toInt = -1 := by
    show (-1#n).toInt = -1
    rw [BitVec.neg_one_eq_allOnes, BitVec.toInt_allOnes, if_pos h0]
  have hne : (-1 : BitVec n) ≠ 0 := by
    intro h
    rw [h] at hint
    exact absurd (BitVec.toInt_zero.symm.trans hint) (by decide)
  refine ⟨(if_neg hne).trans BitVec.intMin_sdiv_neg_one, (if_neg hne).trans (BitVec.eq_of_toInt_eq ?_)⟩
  rw [BitVec.toInt_srem, hint, Int.tmod_neg, Int.tmod_one]
  exact BitVec.toInt_zero.symm

/-! ## Instructions -/

/-- What an arithmetic instruction computes of numbers of `n` bits. A division and a remainder by zero have every bit,
    and a number is shifted by the second one modulo the width. -/
def Opcode.intResult? (op : Opcode) (x y : BitVec n) : Option (BitVec n) :=
  match op with
  | .add => some (x + y)
  | .sub => some (x - y)
  | .mul => some (x * y)
  | .uDiv => some (if y = 0 then .allOnes n else x / y)
  | .sDiv => some (if y = 0 then .allOnes n else x.sdiv y)
  | .uRem => some (if y = 0 then .allOnes n else x % y)
  | .sRem => some (if y = 0 then .allOnes n else x.srem y)
  | .and => some (x &&& y)
  | .or => some (x ||| y)
  | .xor => some (x ^^^ y)
  | .shiftLeft => some (x <<< (y.toNat % n))
  | .logicalShiftRight => some (x >>> (y.toNat % n))
  | .arithShiftRight => some (x.sshiftRight (y.toNat % n))
  | _ => none

/-- The operation that stands for the instruction means the same. -/
theorem Opcode.intResult?_eq (op : Opcode) (x y : BitVec n) : op.intResult? x y = op.intOp?.map (·.meaning x y) := by
  cases op <;> rfl

/-! ## Comparisons -/

/-- What an integer comparison says of numbers of `n` bits. -/
def Opcode.intRelation? (op : Opcode) (x y : BitVec n) : Option Bool :=
  match op with
  | .iEqual => some (x == y)
  | .iNotEqual => some (x != y)
  | .uGreater => some (y.ult x)
  | .uGreaterEqual => some (y.ule x)
  | .uLess => some (x.ult y)
  | .uLessEqual => some (x.ule y)
  | .sGreater => some (y.slt x)
  | .sGreaterEqual => some (y.sle x)
  | .sLess => some (x.slt y)
  | .sLessEqual => some (x.sle y)
  | _ => none

theorem Opcode.intHolds?_eq (h0 : 0 < n) (hn : n ≤ 64) (op : Opcode) (a b : UInt64) :
    op.intHolds? n a b = op.intRelation? (lowBits n a) (lowBits n b) := by
  have hbeq : ∀ {x y : BitVec n}, (wordOf x == wordOf y) = (x == y) := fun {x y} => by
    rw [Bool.eq_iff_iff, beq_iff_eq, beq_iff_eq, wordOf_inj hn]
  unfold intHolds? intRelation?
  simp only [← wordOf_lowBits]
  cases op with
  | iEqual => exact congrArg some hbeq
  | iNotEqual => exact congrArg (some !·) hbeq
  | uGreater | uLess => simp only [wordOf_lt hn, ← BitVec.ult_iff_lt, Bool.decide_eq_true]
  | uGreaterEqual | uLessEqual => simp only [wordOf_le hn, ← BitVec.ule_iff_le, Bool.decide_eq_true]
  | sGreater | sLess => simp only [signExtend_lt h0 hn, Bool.decide_eq_true]
  | sGreaterEqual | sLessEqual => simp only [signExtend_le h0 hn, Bool.decide_eq_true]
  | _ => rfl

end Lockstep
