import Lockstep.Proofs.View.Clamp

set_option autoImplicit false

/-! # Views that keep every bit

A view suits an element type if it reads and writes all bits of its components. Components that lie inside such a
view and the data are found where they start (`Snapshot.locate?_of_inside`). -/

namespace Lockstep

/-- A view in which `k` components of an element type keep every bit: its format is the element type's and its
    elements have a distance that does not depend on the number of components, or its components are as wide as
    the element type's. -/
inductive ViewInfo.Suits (v : ViewInfo) (structStride : Option UInt32) (t : ElemType) (k : Nat) : Prop
  | typeless (hkind : v.format.kind = .typeless) (ht : t.isExact)
      (hstride : v.format.stride ≠ 0 ∨ v.isByteBuffer ∨ structStride.isSome)
  | words (hkind : v.format.kind ≠ .typeless) (hwidth : v.format.byteWidth = 4) (ht : t = .sInt ∨ t = .float)
      (hk : k ≤ v.format.numComps.toNat)
  | doubleWords (hkind : v.format.kind ≠ .typeless) (hwidth : v.format.byteWidth = 8)
      (ht : t = .sLong ∨ t = .double) (hk : k ≤ v.format.numComps.toNat)

/-- The distance of a view's elements, where the view sets one. -/
def ViewInfo.strideFor (v : ViewInfo) (structStride : Option UInt32) : UInt32 :=
  structStride.getD (if v.isByteBuffer then 1 else v.format.stride)

/-- The byte where an access of an element type starts. -/
def ViewInfo.startFor (v : ViewInfo) (structStride : Option UInt32) (t : ElemType) (index : UInt32)
    (offset : UInt64) : Nat :=
  v.start (v.isByteBuffer && structStride.isNone) t.byteSize (v.strideFor structStride).toNat index offset

/-- The byte where the view ends for an access of an element type. -/
def ViewInfo.stopFor (v : ViewInfo) (structStride : Option UInt32) (t : ElemType) : Nat :=
  v.stop (v.isByteBuffer && structStride.isNone) t.byteSize (v.strideFor structStride).toNat

/-- `k` components of an element type at an address lie inside the view and the data, whose positions are
    words. -/
structure Snapshot.Inside (s : Snapshot) (structStride : Option UInt32) (t : ElemType) (index : UInt32)
    (offset : UInt64) (k : Nat) : Prop where
  view : s.info.startFor structStride t index offset + k * t.byteSize ≤ s.info.stopFor structStride t
  data : s.info.startFor structStride t index offset + k * t.byteSize ≤ s.data.length
  stop_lt : s.info.stopFor structStride t < 2 ^ 64
  length_lt : s.data.length < 2 ^ 32

namespace Snapshot

variable {s : Snapshot} {structStride : Option UInt32} {t : ElemType} {k : Nat} {columns : UInt32}

/-- The format in which an access sees a suitable view. -/
theorem formatFor?_of_suits (h : s.info.Suits structStride t k) (hcolumns : k ≤ columns.toNat) :
    ∃ f, s.formatFor? t columns = some f ∧ f.Carries t ∧ k ≤ f.numComps.toNat ∧
      structStride.getD (if s.info.isByteBuffer then 1 else f.stride) = s.info.strideFor structStride := by
  cases h with
  | typeless hkind ht hstride =>
      obtain ⟨g, hg, hwidth, hnarrow⟩ : ∃ g, ViewFormat.ofElem? t columns = some g ∧
          g.byteWidth.toNat = t.byteSize ∧ (t.byteSize < 4 → g.kind = .sInt) := by
        cases t with
        | sByte | sShort => exact ⟨_, rfl, rfl, fun _ => rfl⟩
        | sInt | sLong | float | double => exact ⟨_, rfl, rfl, fun h => absurd h (by decide)⟩
        | _ => cases ht
      obtain ⟨f, hf⟩ : ∃ f, s.formatFor? t columns = some f := by simp [formatFor?, hkind, hg]
      have heq := hf
      rw [formatFor?, if_pos hkind, hg] at heq
      cases heq
      refine ⟨_, hf, ⟨ht, hwidth, hnarrow⟩, hcolumns, ?_⟩
      unfold ViewInfo.strideFor
      rcases hstride with hstride | hbyte | hset
      · dsimp only
        rw [if_neg hstride]
      · rw [if_pos hbyte, if_pos hbyte]
      · obtain ⟨n, rfl⟩ := Option.isSome_iff_exists.1 hset
        rfl
  | words hkind hwidth ht hk =>
      refine ⟨_, if_neg hkind, ?_, hk, rfl⟩
      rcases ht with rfl | rfl <;> exact ⟨rfl, by rw [hwidth]; rfl, fun h => absurd h (by decide)⟩
  | doubleWords hkind hwidth ht hk =>
      refine ⟨_, if_neg hkind, ?_, hk, rfl⟩
      rcases ht with rfl | rfl <;> exact ⟨rfl, by rw [hwidth]; rfl, fun h => absurd h (by decide)⟩

/-- An element whose components lie inside the view is found where it starts, with these components. -/
theorem locate?_of_inside (hsuits : s.info.Suits structStride t k) {index : UInt32} {offset : UInt64}
    (h : s.Inside structStride t index offset k) (hk : 0 < k) (hcolumns : k ≤ columns.toNat) :
    ∃ e, s.locate? structStride t columns (.buffer index offset) = some e ∧
      e.offset = s.info.startFor structStride t index offset ∧ e.format.Carries t ∧
      k ≤ e.format.numComps.toNat := by
  obtain ⟨f, hformat, hcarries, hcomps, hstride⟩ := formatFor?_of_suits hsuits hcolumns
  obtain ⟨g, hg⟩ : ∃ g, { f with stride := s.info.strideFor structStride } = g := ⟨_, rfl⟩
  have hgCarries : g.Carries t := hg ▸ hcarries.of_eq rfl rfl
  have hwidth : g.byteWidth.toNat = t.byteSize := hgCarries.2.1
  have hbytes : 0 < t.byteSize ∧ t.byteSize < 10 := by cases t <;> decide
  have hgStride : g.stride = s.info.strideFor structStride := hg ▸ rfl
  have hgComps : g.numComps = f.numComps := hg ▸ rfl
  have hstart : s.startIn g (s.info.isByteBuffer && structStride.isNone) index offset =
      s.info.startFor structStride t index offset := by
    rw [startIn, hwidth, hgStride]
    rfl
  have hstop : s.stopIn g (s.info.isByteBuffer && structStride.isNone) = s.info.stopFor structStride t := by
    rw [stopIn, hwidth, hgStride]
    rfl
  obtain ⟨last, rfl⟩ := Nat.exists_eq_add_one.2 hk
  have hwhole : s.HasWhole g (s.info.isByteBuffer && structStride.isNone) index offset last := by
    rw [HasWhole, hstart, hstop, hwidth]
    exact ⟨h.data, h.view⟩
  have hlength := h.length_lt
  obtain ⟨pos, n, hfound, hpos, hn⟩ := exists_bufferElement?_of_hasWhole (hwidth ▸ hbytes) (by omega)
    (hstop ▸ h.stop_lt) (show last < g.numComps.toNat by rw [hgComps]; exact hcomps) hwhole
  have hhas := hwhole.hasElement (hwidth ▸ hbytes.1)
  refine ⟨{ offset := pos.toNat, format := { g with numComps := n }, requested := f.numComps }, ?_,
    hpos.trans hstart, hgCarries.of_eq rfl rfl, hn⟩
  unfold locate?
  rw [if_neg (by simp [hhas.data_ne_nil]), hformat, Option.bind_some]
  simp only [hstride, hg]
  rw [← hgStride, if_neg (hwhole.stride_ne (hwidth ▸ hbytes.1)), hfound, Option.map_some]

end Snapshot

end Lockstep
