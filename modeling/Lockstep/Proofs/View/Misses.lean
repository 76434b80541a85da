import Lockstep.Proofs.View.Bounds

set_option autoImplicit false

/-! # Accesses that find nothing

An access misses a snapshot that has no data, a view that does not have its index, and data that end before its
position. What is loaded by it is zero (`Snapshot.Misses.load`), and what is stored leaves the snapshot as it is
(`Snapshot.Misses.store`). -/

namespace Lockstep

namespace Snapshot

/-- The byte where a texel starts, in a format with this distance between texels. -/
def texelStart (s : Snapshot) (f : ViewFormat) (x y z : UInt32) : Nat :=
  x.toNat * f.stride.toNat + y.toNat * s.rowPitch.toNat + z.toNat * s.depthPitch.toNat

/-- An access finds no element. A view that is addressed by byte has as many bytes as its elements, of four bytes at
    most; the other bounds hold for it as well, if the handle says how far its elements are apart. -/
inductive Misses (s : Snapshot) (a : ViewAccess) : Prop
  | unbound (h : s.data = [])
  | index {index : UInt32} {offset : UInt64} (ha : a.address = .buffer index offset) (hview : s.byByte a = false)
      (h : s.info.numElements.toNat ≤ index.toNat)
  | byteIndex {index : UInt32} {offset : UInt64} (ha : a.address = .buffer index offset)
      (hview : s.info.isByteBuffer) (h : ∀ f, s.formatAt? a = some f →
        s.info.numElements.toNat * min f.byteWidth.toNat 4 ≤ index.toNat / 4 * 4)
  | position {index : UInt32} {offset : UInt64} (ha : a.address = .buffer index offset)
      (h : ∀ f, s.formatAt? a = some f →
        s.startOf a f index offset < 2 ^ 64 ∧ s.data.length ≤ s.startOf a f index offset)
  | texel {x y z : UInt32} (ha : a.address = .texel x y z) (htexture : s.isTexture)
      (h : ∀ f, s.formatAt? a = some f → s.texelStart f x y z < 2 ^ 64 ∧ s.data.length ≤ s.texelStart f x y z)

variable {s : Snapshot} {a : ViewAccess} {f : ViewFormat} {index x y z : UInt32} {offset : UInt64} {e : Element}

/-! ## Elements -/

/-- A buffer element that is found is one of the view, starts inside the data, and has components as wide as its
    format says. -/
theorem found_of_element? (ha : a.address = .buffer index offset) (he : s.element? a = some e) :
    ∃ f, s.formatAt? a = some f ∧ e.format.byteWidth = f.byteWidth ∧
      s.info.Has (s.byByte a) f.byteWidth.toNat index ∧
      s.startOf a f index offset % 2 ^ 64 < s.data.length % 2 ^ 64 := by
  rw [element?_buffer ha] at he
  split at he
  · cases he
  · obtain ⟨f, hf, he⟩ := Option.bind_eq_some_iff.1 he
    split at he
    · cases he
    · rw [bufferElement?_eq rfl rfl] at he
      split at he
      · next h =>
          cases he
          refine ⟨f, hf, ?_, h⟩
          dsimp only
          unfold clipped
          split <;> rfl
      · cases he

/-- The word for the position of a texel, if it does not overflow. -/
theorem toNat_texelStart (h : s.texelStart f x y z < 2 ^ 64) :
    (x.toUInt64 * f.stride.toUInt64 + y.toUInt64 * s.rowPitch.toUInt64 + z.toUInt64 * s.depthPitch.toUInt64).toNat =
      s.texelStart f x y z := by
  unfold texelStart at h ⊢
  have hx : (x.toUInt64 * f.stride.toUInt64).toNat = x.toNat * f.stride.toNat :=
    toNat_mul_of_lt (Nat.lt_of_le_of_lt (by simp only [UInt32.toNat_toUInt64]; omega) h)
  have hy : (y.toUInt64 * s.rowPitch.toUInt64).toNat = y.toNat * s.rowPitch.toNat :=
    toNat_mul_of_lt (Nat.lt_of_le_of_lt (by simp only [UInt32.toNat_toUInt64]; omega) h)
  have hz : (z.toUInt64 * s.depthPitch.toUInt64).toNat = z.toNat * s.depthPitch.toNat :=
    toNat_mul_of_lt (Nat.lt_of_le_of_lt (by simp only [UInt32.toNat_toUInt64]; omega) h)
  have hxy := toNat_add_of_lt (a := x.toUInt64 * f.stride.toUInt64) (b := y.toUInt64 * s.rowPitch.toUInt64)
    (by rw [hx, hy]; omega)
  rw [toNat_add_of_lt (by rw [hxy, hx, hy, hz]; exact h), hxy, hx, hy, hz]

theorem element?_texel (ha : a.address = .texel x y z) (htexture : s.isTexture) : s.element? a =
    if s.data.isEmpty then none
    else (s.formatAt? a).bind fun f =>
      if f.stride = 0 then none
      else
        let position := x.toUInt64 * f.stride.toUInt64 + y.toUInt64 * s.rowPitch.toUInt64
          + z.toUInt64 * s.depthPitch.toUInt64
        if position ≥ s.length then none
        else some { offset := position.toNat, format := f, requested := f.numComps } := by
  unfold element? locate? formatAt?
  rw [ha]
  simp only [htexture, if_true]
  cases s.formatFor? a.elem a.columns <;> rfl

/-- A texel that is found starts inside the data. -/
theorem texelStart_lt (ha : a.address = .texel x y z) (htexture : s.isTexture) (he : s.element? a = some e) :
    ∃ f, s.formatAt? a = some f ∧ (s.texelStart f x y z < 2 ^ 64 → s.texelStart f x y z < s.data.length) := by
  rw [element?_texel ha htexture] at he
  split at he
  · cases he
  · obtain ⟨f, hf, he⟩ := Option.bind_eq_some_iff.1 he
    refine ⟨f, hf, fun hlt => ?_⟩
    split at he
    · cases he
    · dsimp only at he
      split at he
      · cases he
      · next hin =>
          have hpos := UInt64.lt_iff_toNat_lt.1 (UInt64.not_le.1 hin)
          rw [toNat_texelStart hlt] at hpos
          exact Nat.lt_of_lt_of_le hpos (Nat.mod_le ..)

/-- An access that misses finds no element, or one whose components have no bytes. -/
theorem Misses.byteWidth_eq (h : s.Misses a) (he : s.element? a = some e) : e.format.byteWidth = 0 := by
  cases h with
  | unbound h =>
      unfold element? locate? at he
      rw [h] at he
      cases he
  | index ha hview h =>
      obtain ⟨f, -, -, hhas, -⟩ := found_of_element? ha he
      unfold ViewInfo.Has ViewInfo.ordinal ViewInfo.unit at hhas
      rw [hview] at hhas
      simp only [Bool.false_eq_true, if_false, Nat.mul_one] at hhas
      omega
  | @byteIndex index _ ha hview h =>
      obtain ⟨f, hf, hwidth, hhas, -⟩ := found_of_element? ha he
      have hle := h f hf
      unfold ViewInfo.Has ViewInfo.ordinal ViewInfo.unit at hhas
      by_cases hbyte : s.byByte a
      · simp only [hbyte, if_true] at hhas
        omega
      · simp only [hbyte, Bool.false_eq_true, if_false, Nat.mul_one] at hhas
        -- the view has the index as that of an element, and has no bytes for it
        rw [hwidth]
        refine UInt32.toNat_inj.1 (Nat.eq_zero_of_not_pos fun hpos => ?_)
        have hunit := Nat.le_mul_of_pos_right s.info.numElements.toNat (Nat.lt_min.2 ⟨hpos, (by decide : 0 < 4)⟩)
        have hround := Nat.div_mul_le_self index.toNat 4
        omega
  | position ha h =>
      obtain ⟨f, hf, -, -, hlt⟩ := found_of_element? ha he
      obtain ⟨hsmall, hle⟩ := h f hf
      rw [Nat.mod_eq_of_lt hsmall] at hlt
      have := Nat.mod_le s.data.length (2 ^ 64)
      omega
  | texel ha htexture h =>
      obtain ⟨f, hf, hlt⟩ := texelStart_lt ha htexture he
      obtain ⟨hsmall, hle⟩ := h f hf
      exact absurd (hlt hsmall) (Nat.not_lt.2 hle)

/-! ## Loads and stores -/

/-- What is loaded by an access that misses is zero. -/
theorem Misses.load (h : s.Misses a) {comps : Texel} (hload : s.load? a = some comps) (c : Nat) :
    comps[c]?.getD 0 = 0 := by
  obtain ⟨e, he, rfl⟩ := Option.map_eq_some_iff.1 hload
  have hwidth := h.byteWidth_eq he
  have hdecode : s.decodeAt e = Vector.replicate 4 0 := by
    unfold decodeAt ViewFormat.decode
    rw [hwidth]
    rfl
  have hzero : ∀ t : ElemType, t.ofWide 0 0 = 0 := by
    intro t
    cases t <;> decide +kernel
  by_cases hc : c < 4
  · simp [hc, hwidth, hdecode, hzero]
  · simp [hc]

/-- What is stored by an access that misses leaves the snapshot as it is. -/
theorem Misses.store (h : s.Misses a) (values : Vector (Option Variable) 4) : (s.store? a values).getD s = s := by
  cases hstore : s.store? a values with
  | none => rfl
  | some left =>
      obtain ⟨e, he, rfl⟩ := Option.map_eq_some_iff.1 hstore
      have hwidth := h.byteWidth_eq he
      unfold encodeAt ViewFormat.encode
      rw [hwidth]
      exact congrArg (fun data => { s with data }) (List.take_append_drop ..)

end Snapshot

end Lockstep
