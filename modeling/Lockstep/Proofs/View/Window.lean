import Lockstep.View.Access
import Lockstep.Proofs.View.Format

set_option autoImplicit false

/-! # The window of a view

The positions of buffer elements and the bounds of a view in exact numbers, and the words that are computed for
them. -/

namespace Lockstep

/-- Clearing the two low bits rounds down to a multiple of four. -/
theorem toNat_and_not_three (w : UInt64) : (w &&& ~~~3).toNat = w.toNat / 4 * 4 := by
  rw [UInt64.toNat_and]
  refine Nat.eq_of_testBit_eq fun i => ?_
  have hmask : (~~~(3 : UInt64)).toNat = 2 ^ 64 - (3 + 1) := rfl
  have hshift : w.toNat / 4 * 4 = w.toNat >>> 2 <<< 2 := by
    rw [Nat.shiftRight_eq_div_pow, Nat.shiftLeft_eq]
  have hthree : Nat.testBit 3 i = decide (i < 2) := Nat.testBit_two_pow_sub_one 2 i
  rw [Nat.testBit_and, hmask, Nat.testBit_two_pow_sub_succ (by decide), hthree, hshift, Nat.testBit_shiftLeft,
    Nat.testBit_shiftRight]
  by_cases hi : 2 ≤ i
  · by_cases h64 : i < 64
    · simp [hi, h64, show ¬ i < 2 by omega, show 2 + (i - 2) = i by omega]
    · have : w.toNat.testBit i = false :=
        Nat.testBit_lt_two_pow (Nat.lt_of_lt_of_le w.toNat_lt (Nat.pow_le_pow_right (by decide) (by omega)))
      simp [hi, h64, this, show 2 + (i - 2) = i by omega]
  · simp [hi, show i < 2 by omega]

namespace ViewInfo

/-- What the bounds of a view are counted in: dwords at most when elements are addressed by byte. -/
def unit (byByte : Bool) (width : Nat) : Nat := if byByte then min width 4 else 1

/-- The byte where a buffer element starts, when components have `width` bytes and elements are `stride` bytes
    apart. -/
def start (v : ViewInfo) (byByte : Bool) (width stride : Nat) (index : UInt32) (offset : UInt64) : Nat :=
  offset.toNat +
    (v.firstElement.toNat * unit byByte width + if byByte then index.toNat / 4 * 4 else index.toNat) * stride

/-- The byte where the view ends. -/
def stop (v : ViewInfo) (byByte : Bool) (width stride : Nat) : Nat :=
  (v.firstElement.toNat * unit byByte width + v.numElements.toNat * unit byByte width) * stride

end ViewInfo

/-! ## Words that do not overflow -/

theorem toNat_mul_of_lt {a b : UInt64} (h : a.toNat * b.toNat < 2 ^ 64) :
    (a * b).toNat = a.toNat * b.toNat := by
  rw [UInt64.toNat_mul, Nat.mod_eq_of_lt h]

theorem toNat_add_of_lt {a b : UInt64} (h : a.toNat + b.toNat < 2 ^ 64) :
    (a + b).toNat = a.toNat + b.toNat := by
  rw [UInt64.toNat_add, Nat.mod_eq_of_lt h]

theorem UInt32.toNat_min (a b : UInt32) : (min a b).toNat = min a.toNat b.toNat := by
  show (if a ≤ b then a else b).toNat = _
  split
  · next h => exact (Nat.min_eq_left h).symm
  · next h => exact (Nat.min_eq_right (Nat.le_of_not_le h)).symm

theorem UInt64.toNat_min (a b : UInt64) : (min a b).toNat = min a.toNat b.toNat := by
  show (if a ≤ b then a else b).toNat = _
  split
  · next h => exact (Nat.min_eq_left h).symm
  · next h => exact (Nat.min_eq_right (Nat.le_of_not_le h)).symm

theorem ViewInfo.toNat_unit (byByte : Bool) (width : UInt32) :
    (if byByte then (min width 4).toUInt64 else 1).toNat = unit byByte width.toNat := by
  cases byByte with
  | false => rfl
  | true => exact UInt32.toNat_min ..

theorem ViewInfo.unit_le (byByte : Bool) (width : Nat) : unit byByte width ≤ 4 := by
  unfold unit
  split <;> omega

theorem ViewInfo.toNat_index (byByte : Bool) (index : UInt32) :
    (if byByte then index.toUInt64 &&& ~~~3 else index.toUInt64).toNat =
      if byByte then index.toNat / 4 * 4 else index.toNat := by
  cases byByte with
  | false => rfl
  | true => exact toNat_and_not_three _

end Lockstep
