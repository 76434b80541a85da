import Lockstep.Exec.Number
import Mathlib.Algebra.Group.Nat.Defs

set_option autoImplicit false

/-! # Widths of components

Every operation on components gives words that fit the width of the result: integer operations and casts
cut theirs, and a float pattern has the width of its format (`FloatFormat.encode_lt`). -/

namespace Lockstep

/-! ## Integers -/

theorem toNat_mask {n : Nat} : (mask n).toNat = 2 ^ min n 64 - 1 := by
  unfold mask
  split
  · next h => rw [Nat.min_eq_right h]; rfl
  · next h =>
      have hn : n < 64 := Nat.lt_of_not_le h
      have hword : n.toUInt64.toNat = n := Nat.mod_eq_of_lt (Nat.lt_trans hn (by decide))
      have hshift : ((1 : UInt64) <<< n.toUInt64).toNat = 2 ^ n := by
        have hlt : 2 ^ n < 2 ^ 64 := Nat.pow_lt_pow_right (by decide) hn
        rw [UInt64.toNat_shiftLeft, hword, Nat.mod_eq_of_lt hn]
        exact (congrArg (· % 2 ^ 64) (Nat.one_shiftLeft n)).trans (Nat.mod_eq_of_lt hlt)
      have hle : (1 : UInt64) ≤ (1 : UInt64) <<< n.toUInt64 := by
        rw [UInt64.le_iff_toNat_le, hshift]
        exact Nat.two_pow_pos n
      rw [UInt64.toNat_sub_of_le _ _ hle, hshift, Nat.min_eq_left (Nat.le_of_lt hn)]
      rfl

theorem toNat_mask_lt (n : Nat) : (mask n).toNat < 2 ^ n := by
  rw [toNat_mask]
  exact Nat.lt_of_lt_of_le (Nat.sub_lt (Nat.two_pow_pos _) Nat.one_pos)
    (Nat.pow_le_pow_right (by decide) (Nat.min_le_left ..))

theorem and_mask_lt (w : UInt64) (n : Nat) : (w &&& mask n).toNat < 2 ^ n := by
  rw [UInt64.toNat_and]
  exact Nat.lt_of_le_of_lt Nat.and_le_right (toNat_mask_lt n)

theorem IntOp.apply_lt (op : IntOp) (bits : Nat) (a b : UInt64) :
    (op.apply bits a b).toNat < 2 ^ bits :=
  and_mask_lt ..

/-! ## Floats -/

namespace FloatFormat

variable {f : FloatFormat}

theorem pack_lt (neg : Bool) {fields : Nat} (h : fields < 2 ^ (f.width - 1)) :
    (f.pack neg fields).toNat < 2 ^ f.width := by
  have hwidth : 2 ^ f.width = 2 ^ (f.width - 1) + 2 ^ (f.width - 1) := by
    rw [← Nat.two_mul, ← Nat.pow_succ']
    exact congrArg (2 ^ ·) (by unfold width; omega)
  refine Nat.lt_of_le_of_lt (Nat.mod_le ..) ?_
  rw [hwidth]
  split
  · exact Nat.add_lt_add_left h _
  · omega

/-- Fields below the sign: an exponent field and less than a unit of it. -/
theorem fields_lt {e x : Nat} (he : e ≤ f.expMax) (hx : x < 2 ^ f.fracBits) :
    e * 2 ^ f.fracBits + x < 2 ^ (f.width - 1) := by
  have hwidth : 2 ^ (f.width - 1) = 2 ^ f.expBits * 2 ^ f.fracBits := by
    rw [← Nat.pow_add]
    exact congrArg (2 ^ ·) (by unfold width; omega)
  have hexp : e + 1 ≤ 2 ^ f.expBits := by
    have hpos : 0 < 2 ^ f.expBits := Nat.two_pow_pos _
    have hmax : f.expMax = 2 ^ f.expBits - 1 := rfl
    omega
  calc e * 2 ^ f.fracBits + x < (e + 1) * 2 ^ f.fracBits := by
        rw [Nat.succ_mul]
        exact Nat.add_lt_add_left hx _
    _ ≤ 2 ^ (f.width - 1) := hwidth ▸ Nat.mul_le_mul_right _ hexp

theorem magnitude_lt (m : Nat) (e : Int) : f.magnitude m e < 2 ^ (f.width - 1) := by
  have hmax : f.expMax * 2 ^ f.fracBits < 2 ^ (f.width - 1) :=
    fields_lt (x := 0) (Nat.le_refl _) (Nat.two_pow_pos _)
  unfold magnitude
  split
  · exact Nat.two_pow_pos _
  · exact Nat.lt_of_le_of_lt (Nat.min_le_right ..) hmax

theorem quietNaN_lt (hf : 0 < f.fracBits) (neg : Bool) (payload : Nat) :
    (f.quietNaN neg payload).toNat < 2 ^ f.width := by
  refine pack_lt neg (fields_lt (Nat.le_refl _) (Nat.or_lt_two_pow ?_ ?_))
  · exact Nat.mod_lt _ (Nat.two_pow_pos _)
  · exact Nat.pow_lt_pow_right (by decide) (by omega)

/-- A pattern has the width of its format. -/
theorem encode_lt (hf : 0 < f.fracBits) (v : FloatValue) : (f.encode v).toNat < 2 ^ f.width := by
  cases v with
  | nan neg p => exact quietNaN_lt hf neg p
  | inf neg => exact pack_lt neg (fields_lt (x := 0) (Nat.le_refl _) (Nat.two_pow_pos _))
  | finite neg m e => exact pack_lt neg (magnitude_lt m e)

theorem convert_lt (hf : 0 < f.fracBits) (src : FloatFormat) (bits : UInt64) :
    (convert src f bits).toNat < 2 ^ f.width := by
  unfold convert
  split
  · exact quietNaN_lt hf ..
  · exact encode_lt hf _

section

variable (hf : 0 < f.fracBits)
include hf

theorem addValues_lt (v w : FloatValue) : (f.addValues v w).toNat < 2 ^ f.width := by
  have hnan := quietNaN_lt hf
  have hencode := encode_lt hf
  unfold addValues invalid
  split <;> (try split) <;> simp only [hnan, hencode]

theorem mul_lt (a b : UInt64) : (f.mul a b).toNat < 2 ^ f.width := by
  have hnan := quietNaN_lt hf
  have hencode := encode_lt hf
  unfold mul invalid
  split <;> (try split) <;> simp only [hnan, hencode]

theorem div_lt (a b : UInt64) : (f.div a b).toNat < 2 ^ f.width := by
  have hnan := quietNaN_lt hf
  have hencode := encode_lt hf
  unfold div invalid encodeQuotient
  split <;> (try split) <;> (try split) <;> simp only [hnan, hencode]

theorem rem_lt (a b : UInt64) : (f.rem a b).toNat < 2 ^ f.width := by
  have hnan := quietNaN_lt hf
  have hencode := encode_lt hf
  unfold rem invalid
  split <;> (try split) <;> simp only [hnan, hencode]

theorem select_lt (better : FloatValue → FloatValue → Bool) (a b : UInt64) :
    (f.select better a b).toNat < 2 ^ f.width := by
  have hencode := encode_lt hf
  unfold select
  dsimp only
  split
  · exact hencode _
  · split
    · exact hencode _
    · split <;> exact hencode _

/-- The operations on patterns give patterns. -/
theorem apply_lt (op : FloatOp) (a b : UInt64) : (op.apply f a b).toNat < 2 ^ f.width := by
  cases op with
  | add => exact addValues_lt hf _ _
  | sub => exact addValues_lt hf _ _
  | mul => exact mul_lt hf a b
  | div => exact div_lt hf a b
  | rem => exact rem_lt hf a b
  | min => exact select_lt hf _ a b
  | max => exact select_lt hf _ a b

end

end FloatFormat

/-! ## Element types -/

namespace ElemType

theorem two_pow_bits_le (t : ElemType) : 2 ^ t.bits ≤ 2 ^ (8 * t.byteSize) :=
  Nat.pow_le_pow_right (by decide) (by cases t <;> decide)

theorem and_mask_bits_lt (t : ElemType) (w : UInt64) : (w &&& mask t.bits).toNat < 2 ^ (8 * t.byteSize) :=
  Nat.lt_of_lt_of_le (and_mask_lt w t.bits) t.two_pow_bits_le

theorem ofDouble_lt {t : ElemType} (ht : t.isFloat) (double : UInt64) :
    (t.ofDouble double).toNat < 2 ^ (8 * t.byteSize) := by
  cases t with
  | half => exact FloatFormat.convert_lt (f := .half) (by decide) ..
  | float => exact FloatFormat.convert_lt (f := .single) (by decide) ..
  | double => exact double.toNat_lt
  | _ => cases ht

theorem floatOp_lt {t : ElemType} {op : FloatOp} {a b c : UInt64} (h : t.floatOp? op a b = some c) :
    c.toNat < 2 ^ (8 * t.byteSize) := by
  cases t with
  | half =>
      cases h
      exact FloatFormat.apply_lt (f := .half) (by decide) ..
  | float =>
      cases h
      exact FloatFormat.apply_lt (f := .single) (by decide) ..
  | double =>
      cases h
      exact FloatFormat.apply_lt (f := .double) (by decide) ..
  | _ => cases h

theorem flush_le (t : ElemType) (w : UInt64) : (t.flush w).toNat ≤ w.toNat := by
  unfold flush
  split
  · rw [UInt64.toNat_and]
    exact Nat.and_le_left
  · exact Nat.le_refl _

end ElemType

/-! ## Casts -/

namespace Lane

theorem floatToUnsigned_lt (v : FloatValue) (bits : Nat) : (floatToUnsigned v bits).toNat < 2 ^ bits := by
  unfold floatToUnsigned
  split
  · next h =>
      subst h
      split <;> decide
  · refine Nat.lt_of_le_of_lt (Nat.mod_le ..) ?_
    have hpos : 0 < 2 ^ bits := Nat.two_pow_pos bits
    have hmax : Nat.pow 2 bits - 1 < 2 ^ bits := Nat.sub_lt hpos Nat.one_pos
    unfold FloatValue.toUnsigned
    split
    · exact hpos
    · split
      · exact hpos
      · exact hmax
    · split
      · exact hpos
      · exact Nat.lt_of_le_of_lt (Nat.min_le_right ..) hmax

theorem floatToSigned_lt (v : FloatValue) (bits : Nat) : (floatToSigned v bits).toNat < 2 ^ bits := by
  unfold floatToSigned
  split
  · next h =>
      subst h
      split <;> decide
  · exact and_mask_lt ..

/-- A cast component fits, if an extension is to a wider type, and a conversion to floats to floats. -/
theorem castComp_lt {op : Opcode} {src dst : ElemType} {v w : UInt64}
    (hext : op = .zExt → src.bits ≤ 8 * dst.byteSize)
    (hfloat : op = .uToF ∨ op = .sToF ∨ op = .fpTrunc ∨ op = .fpExt → dst.isFloat)
    (h : castComp? op src dst v = some w) : w.toNat < 2 ^ (8 * dst.byteSize) := by
  have hbits : ∀ {x : UInt64}, x.toNat < 2 ^ dst.bits → x.toNat < 2 ^ (8 * dst.byteSize) :=
    fun hx => Nat.lt_of_lt_of_le hx dst.two_pow_bits_le
  cases op with
  | trunc | ptrToI | iToPtr | sExt =>
      cases h
      exact dst.and_mask_bits_lt _
  | zExt =>
      cases h
      exact Nat.lt_of_lt_of_le (and_mask_lt ..) (Nat.pow_le_pow_right (by decide) (hext rfl))
  | fToU =>
      cases h
      exact hbits (floatToUnsigned_lt ..)
  | fToS =>
      cases h
      exact hbits (floatToSigned_lt ..)
  | uToF | sToF | fpTrunc | fpExt =>
      cases h
      exact ElemType.ofDouble_lt (hfloat (by simp)) _
  | _ => cases h

end Lane

end Lockstep
