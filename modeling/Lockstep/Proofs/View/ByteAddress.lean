import Lockstep.Proofs.View.Bounds
import Mathlib.Algebra.GroupWithZero.Nat

set_option autoImplicit false

/-! # Byte addresses

Where an element of a byte-address view lies does not depend on the number of its components, but on the size
of one: the view's bounds are counted in components of at most four bytes (`Snapshot.offset?_byteAddress`). So it
should not depend on the element type at all, and does not among types of four and eight bytes. The theorem
`Snapshot.offset?_eq_iff` says when it is the same for two types. -/

namespace Lockstep

namespace Snapshot

variable {s : Snapshot} {index : UInt32} {offset : UInt64} {t t' : ElemType} {columns columns' : UInt32}

/-- Elements are addressed by byte, and the view has no type of its own. -/
def IsByteAddress (s : Snapshot) : Prop := s.info.isByteBuffer ∧ s.info.format.kind = .typeless

instance (s : Snapshot) : Decidable s.IsByteAddress := inferInstanceAs (Decidable (_ ∧ _))

/-- Where an access of an element type finds an element that is not annotated, if it finds one. -/
def offset? (s : Snapshot) (t : ElemType) (columns index : UInt32) (offset : UInt64) : Option Nat :=
  (s.locate? none t columns (.buffer index offset)).map Element.offset

/-- The position of a byte address in a view whose bounds are counted in a unit. -/
def byteAddress? (s : Snapshot) (unit : Nat) (index : UInt32) (offset : UInt64) : Option Nat :=
  let pos := (offset.toNat + (s.info.firstElement.toNat * unit + index.toNat / 4 * 4)) % 2 ^ 64
  if index.toNat / 4 * 4 < s.info.numElements.toNat * unit ∧ pos < s.data.length % 2 ^ 64 then some pos
  else none

/-- What an element type counts the bounds of a byte-address view in. -/
def unitOf (t : ElemType) : Nat := min t.byteSize 4

theorem unitOf_le (t : ElemType) : unitOf t ≤ 4 := Nat.min_le_right ..

theorem byteWidth_of_componentOf? {c : UInt32 × NumericKind} (h : ViewFormat.componentOf? t = some c) :
    c.1.toNat = t.byteSize := by
  cases t <;> first | (cases h; rfl) | cases h

/-- An element is found where its byte address says, in the units of its type. -/
theorem offset?_byteAddress (hs : s.IsByteAddress) (ht : (ViewFormat.componentOf? t).isSome) :
    s.offset? t columns index offset = s.byteAddress? (unitOf t) index offset := by
  obtain ⟨c, hc⟩ := Option.isSome_iff_exists.1 ht
  have hwidth := byteWidth_of_componentOf? hc
  have hformat : s.formatAt? ⟨none, t, columns, .buffer index offset⟩ =
      some { byteWidth := c.1, numComps := columns, kind := c.2, stride := 1 } := by
    rw [formatAt?, formatFor?, ViewFormat.ofElem?]
    dsimp only
    rw [if_pos hs.2, hc, hs.1]
    rfl
  have hbyte : s.byByte ⟨none, t, columns, .buffer index offset⟩ = true := Bool.and_eq_true_iff.2 ⟨hs.1, rfl⟩
  have hbounds : 0 < c.1.toNat ∧ c.1.toNat < 10 := by
    rw [hwidth]
    cases t <;> decide
  have hlocate := element?_eq (s := s) rfl hformat hbounds
  have hstart : s.startOf ⟨none, t, columns, .buffer index offset⟩
      { byteWidth := c.1, numComps := columns, kind := c.2, stride := 1 } index offset =
      offset.toNat + (s.info.firstElement.toNat * unitOf t + index.toNat / 4 * 4) := by
    rw [startOf, hbyte, hwidth]
    exact congrArg _ (Nat.mul_one _)
  rw [offset?, show s.locate? none t columns (.buffer index offset) = _ from hlocate, hstart, hbyte, hwidth]
  unfold byteAddress?
  dsimp only
  split
  · next h => exact (if_pos h.2).symm
  · next h => exact (if_neg fun h' => h ⟨by decide, h'⟩).symm

theorem eq_of_byteAddress? {unit pos : Nat} (h : s.byteAddress? unit index offset = some pos) :
    (offset.toNat + (s.info.firstElement.toNat * unit + index.toNat / 4 * 4)) % 2 ^ 64 = pos := by
  unfold byteAddress? at h
  dsimp only at h
  split at h
  · exact Option.some.inj h
  · cases h

/-- A byte address that is found in two units has the same position in both if the units are the same or the
    view begins at the first element. -/
theorem byteAddress?_eq_iff {unit unit' pos pos' : Nat} (hunit : unit ≤ 4) (hunit' : unit' ≤ 4)
    (h : s.byteAddress? unit index offset = some pos) (h' : s.byteAddress? unit' index offset = some pos') :
    pos = pos' ↔ unit = unit' ∨ s.info.firstElement = 0 := by
  have hpos := eq_of_byteAddress? h
  have hpos' := eq_of_byteAddress? h'
  have hfirst := Nat.mul_le_mul (Nat.le_of_lt s.info.firstElement.toNat_lt) hunit
  have hfirst' := Nat.mul_le_mul (Nat.le_of_lt s.info.firstElement.toNat_lt) hunit'
  have hzero : s.info.firstElement = 0 ↔ s.info.firstElement.toNat = 0 := UInt32.toNat_inj.symm
  rw [hzero, ← mul_eq_mul_left_iff]
  generalize s.info.firstElement.toNat * unit = first at *
  generalize s.info.firstElement.toNat * unit' = first' at *
  omega

/-- An element of a byte-address view has the same position for two element types exactly when the types count
    the view's bounds in the same unit, or when it is found for neither, or when the view begins at the first
    element and it is found for both. -/
theorem offset?_eq_iff (hs : s.IsByteAddress) (ht : (ViewFormat.componentOf? t).isSome)
    (ht' : (ViewFormat.componentOf? t').isSome) :
    s.offset? t columns index offset = s.offset? t' columns' index offset ↔
      unitOf t = unitOf t' ∨
        (s.offset? t columns index offset = none ∧ s.offset? t' columns' index offset = none) ∨
        (s.info.firstElement = 0 ∧ (s.offset? t columns index offset).isSome ∧
          (s.offset? t' columns' index offset).isSome) := by
  rw [offset?_byteAddress hs ht, offset?_byteAddress hs ht']
  cases h : s.byteAddress? (unitOf t) index offset with
  | none =>
      cases h' : s.byteAddress? (unitOf t') index offset with
      | none => simp
      | some pos' =>
          have hne : unitOf t ≠ unitOf t' := fun heq => by
            rw [heq, h'] at h
            cases h
          simp [hne]
  | some pos =>
      cases h' : s.byteAddress? (unitOf t') index offset with
      | none =>
          have hne : unitOf t ≠ unitOf t' := fun heq => by
            rw [← heq, h] at h'
            cases h'
          simp [hne]
      | some pos' =>
          rw [Option.some.injEq, byteAddress?_eq_iff (unitOf_le t) (unitOf_le t') h h']
          simp only [Option.isSome_some, and_self, and_true, reduceCtorEq, false_or]

/-- Two dwords that are read by byte address, behind two others. -/
def lastTwoDwords : Snapshot :=
  { info := { firstElement := 2, numElements := 2, isByteBuffer := true, format := { byteWidth := 4, stride := 4 } }
    data := List.replicate 16 1 }

/-- The second dword of this view is where words and double words find it. -/
theorem lastTwoDwords_words_agree : lastTwoDwords.offset? .sInt 1 4 0 = lastTwoDwords.offset? .double 1 4 0 :=
  (offset?_eq_iff (by decide) (by decide) (by decide)).2 (.inl (by decide))

/-- Short numbers find nothing at the byte address of the second dword, and the first one where it is not. -/
theorem lastTwoDwords_shorts_differ :
    lastTwoDwords.IsByteAddress ∧ lastTwoDwords.info.format.byteWidth = 4 ∧
      lastTwoDwords.offset? .sInt 1 0 0 = some 8 ∧ lastTwoDwords.offset? .sShort 1 0 0 = some 4 ∧
      lastTwoDwords.offset? .sInt 1 4 0 = some 12 ∧ lastTwoDwords.offset? .sShort 1 4 0 = none := by
  decide

end Snapshot

end Lockstep
