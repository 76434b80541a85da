import Lockstep.Proofs.View.InView

set_option autoImplicit false

/-! # Atomic updates of a component

An update of an integer component that lies inside the view and the data gives the word that is there and
replaces it (`Snapshot.update?_of_inside`). An update of one that does not gives zero
(`Snapshot.update?_of_outside`). It leaves the bytes alone, unless the component lies inside the data but not
inside the view. -/

namespace Lockstep

/-! ## Words of whole bytes -/

namespace Bytes

/-- A word that is read behind a part of the bytes. -/
theorem wordAt_drop {bs : Bytes} {start : Nat} (h : start ≤ bs.length) (at_ width : Nat) :
    wordAt (bs.drop start) at_ width = bs.wordAt (start + at_) width := by
  have happend := wordAt_append (bs.take start) (bs.drop start) at_ width
  rwa [List.take_append_drop, List.length_take_of_le h, eq_comm] at happend

/-- A word that is written behind a part of the bytes. -/
theorem take_append_setWordAt (bs : Bytes) {start : Nat} (h : start ≤ bs.length) (width : Nat) (w : UInt64) :
    bs.take start ++ setWordAt (bs.drop start) 0 width w = bs.setWordAt start width w := by
  by_cases hfits : start + width ≤ bs.length
  · rw [setWordAt_eq hfits, setWordAt_eq (by rw [List.length_drop]; omega), List.take_zero, List.nil_append,
      List.append_assoc, List.drop_drop, Nat.zero_add]
  · have hno : ¬ 0 + width ≤ bs.length - start := by omega
    rw [setWordAt, setWordAt, splice?, splice?, length_ofWord, List.length_drop, if_neg hfits, if_neg hno]
    exact List.take_append_drop ..

end Bytes

/-! ## Integers of four and eight bytes -/

/-- The integers of a word and of a double word. -/
def ElemType.IsWord (t : ElemType) : Prop := t = .sInt ∨ t = .uInt ∨ t = .sLong ∨ t = .uLong

instance (t : ElemType) : Decidable t.IsWord := inferInstanceAs (Decidable (_ ∨ _))

namespace ElemType

variable {t : ElemType} {width : UInt32}

theorem bits_of_isWord (h : t.IsWord) : t.bits = t.byteSize * 8 := by
  rcases h with rfl | rfl | rfl | rfl <;> rfl

/-- The low half of a sign extension is that of the word. -/
theorem low_signExtend (x : UInt64) : (signExtend x 32).toUInt64 &&& 0xffffffff = x &&& 0xffffffff := by
  have hshift : x <<< 32 = (x &&& mask 32) <<< 32 := by
    refine UInt64.toNat_inj.1 ?_
    rw [UInt64.toNat_shiftLeft, UInt64.toNat_shiftLeft, toNat_and_mask, Nat.shiftLeft_eq, Nat.shiftLeft_eq]
    show x.toNat * 2 ^ 32 % 2 ^ 64 = x.toNat % 2 ^ 32 * 2 ^ 32 % 2 ^ 64
    omega
  have hlow : signExtend x 32 = signExtend (x &&& mask 32) 32 :=
    congrArg (fun z : UInt64 => z.toInt64 >>> (Int64.ofNat 32)) hshift
  have hlt : (x &&& mask 32).toNat < 2 ^ 32 := by
    rw [toNat_and_mask]
    exact Nat.mod_lt _ (by decide)
  refine UInt64.toNat_inj.1 ?_
  rw [hlow, toNat_signExtend_low (.inr (.inr rfl)) hlt]
  show _ = (x &&& mask 32).toNat
  split <;> omega

/-- What is encoded for an integer has its bits. -/
theorem toWide_mod (ht : t.IsWord) (hwidth : width.toNat = t.byteSize) (x : UInt64) :
    (t.toWide width x).toNat % 2 ^ (8 * t.byteSize) = x.toNat % 2 ^ (8 * t.byteSize) := by
  have hmask : (x &&& 0xffffffff).toNat = x.toNat % 2 ^ 32 := toNat_and_mask x 32
  rcases ht with rfl | rfl | rfl | rfl
  · obtain rfl : width = 4 := UInt32.toNat_inj.1 hwidth
    show ((signExtend x 32).toUInt64 &&& 0xffffffff).toNat % 2 ^ 32 = x.toNat % 2 ^ 32
    rw [low_signExtend, hmask, Nat.mod_mod]
  · obtain rfl : width = 4 := UInt32.toNat_inj.1 hwidth
    show (x &&& 0xffffffff).toNat % 2 ^ 32 = x.toNat % 2 ^ 32
    rw [hmask, Nat.mod_mod]
  all_goals
    obtain rfl : width = 8 := UInt32.toNat_inj.1 hwidth
    rfl

/-- What is decoded for an integer has its bits. -/
theorem ofWide_of_lt (ht : t.IsWord) (hwidth : width.toNat = t.byteSize) {x : UInt64}
    (hx : x.toNat < 2 ^ (8 * t.byteSize)) : t.ofWide width x = x := by
  have hmask : x.toNat < 2 ^ 32 → x &&& mask 32 = x := fun hx =>
    UInt64.toNat_inj.1 ((toNat_and_mask x 32).trans (Nat.mod_eq_of_lt hx))
  rcases ht with rfl | rfl | rfl | rfl
  · obtain rfl : width = 4 := UInt32.toNat_inj.1 hwidth
    exact hmask hx
  · obtain rfl : width = 4 := UInt32.toNat_inj.1 hwidth
    exact hmask hx
  all_goals
    obtain rfl : width = 8 := UInt32.toNat_inj.1 hwidth
    rfl

end ElemType

namespace ViewFormat

variable {f : ViewFormat}

/-- A single component is the word at the start. -/
theorem encode_of_one (h : f.IsPlain) (hwide : ¬ f.byteWidth < 4) (texel : Texel) (bytes : Bytes) :
    ({ f with numComps := 1 } : ViewFormat).encode texel bytes =
      bytes.setWordAt 0 f.byteWidth.toNat (texel[0]?.getD 0) := by
  obtain ⟨g, hg⟩ : ∃ g : ViewFormat, { f with numComps := 1 } = g := ⟨_, rfl⟩
  have hplain : g.IsPlain := hg ▸ h
  have hone : g.comps = 1 := hg ▸ rfl
  rw [hg, encode_of_isPlain hplain, encodeComps, hone]
  show bytes.setWordAt (0 * g.byteWidth.toNat) _ (g.toWord (texel[0]?.getD 0)) = _
  rw [Nat.zero_mul, toWord, ← hg, if_neg hwide]

/-- The first component is the word at the start, or zero if there is none. -/
theorem decode_first (h : f.IsPlain) (hwide : ¬ f.byteWidth < 4) (bytes : Bytes) :
    (f.decode bytes)[0]? = some (if 0 < f.numComps.toNat then bytes.wordAt 0 f.byteWidth.toNat else 0) := by
  rw [decode_of_isPlain h, decodeComps, Vector.getElem?_ofFn, dif_pos (by decide)]
  by_cases hpos : 0 < f.numComps.toNat
  · have hcomps : 0 < f.comps := Nat.lt_min.2 ⟨hpos, by decide⟩
    rw [if_pos hcomps, if_pos hpos, ofWord, if_neg hwide, Nat.zero_mul]
  · have hcomps : ¬ 0 < f.comps := fun h => hpos (Nat.lt_min.1 h).1
    rw [if_neg hcomps, if_neg hpos]
    rfl

end ViewFormat

namespace Snapshot

variable {s : Snapshot} {a : ViewAccess} {f : ViewFormat} {index : UInt32} {offset : UInt64} {e : Element}
  {start : Nat}

/-- The snapshot in which a word is overwritten. -/
def setWord (s : Snapshot) (start width : Nat) (w : UInt64) : Snapshot :=
  { s with data := s.data.setWordAt start width w }

/-- An update of an element that is found takes the first component as zero where the view does not have it, and
    overwrites it in the data. -/
theorem update?_of_found (he : s.element? a = some e) (hfound : s.Found a f start e) (ht : a.elem.IsWord)
    (hwidth : f.byteWidth.toNat = a.elem.byteSize) (change : UInt64 → UInt64) :
    ∃ old, s.update? a change = some (old, s.setWord start a.elem.byteSize (change old)) ∧
      old = if 0 < e.format.numComps.toNat then s.data.wordAt start a.elem.byteSize else 0 := by
  have hplain : f.IsPlain := by
    unfold ViewFormat.IsPlain
    simp only [← UInt32.toNat_inj, hwidth]
    rcases ht with ht | ht | ht | ht <;> rw [ht] <;> decide
  have heWidth : e.format.byteWidth.toNat = a.elem.byteSize := by rw [hfound.width, hwidth]
  have hwide : ¬ e.format.byteWidth < 4 := by
    rw [UInt32.lt_iff_toNat_lt, heWidth]
    rcases ht with ht | ht | ht | ht <;> rw [ht] <;> decide
  have hstart := Nat.le_of_lt hfound.start_lt
  refine ⟨a.elem.ofWide e.format.byteWidth (s.decodeAt e)[0], ?_, ?_⟩
  · generalize hnew : a.elem.toWide e.format.byteWidth
      (change (a.elem.ofWide e.format.byteWidth (s.decodeAt e)[0])) = new
    have hword := ElemType.toWide_mod ht heWidth (change (a.elem.ofWide e.format.byteWidth (s.decodeAt e)[0]))
    rw [hnew] at hword
    rw [update?, he, Option.map_some]
    dsimp only
    rw [hnew, hfound.offset, encodeAt, setWord, ViewFormat.encode_of_one (hfound.isPlain hplain) hwide,
      heWidth, Bytes.take_append_setWordAt _ hstart, Vector.getElem?_set_self,
      Option.getD_some, Bytes.setWordAt_congr _ _ hword]
  · have hfirst := ViewFormat.decode_first (hfound.isPlain hplain) hwide (s.data.drop e.offset)
    rw [decodeAt, (Vector.getElem?_eq_some_iff.1 hfirst).2, hfound.offset, heWidth]
    rw [Bytes.wordAt_drop hstart, Nat.add_zero]
    split
    · exact ElemType.ofWide_of_lt ht heWidth (Bytes.wordAt_lt ..)
    · exact ElemType.ofWide_of_lt ht heWidth (Nat.two_pow_pos _)

/-- The view holds integers of the type: it has no type of its own, or components of the type's size. -/
def HoldsWords (s : Snapshot) (t : ElemType) : Prop :=
  t.IsWord ∧ (s.info.format.kind = .typeless ∨ s.info.format.byteWidth.toNat = t.byteSize)

instance (s : Snapshot) (t : ElemType) : Decidable (s.HoldsWords t) := inferInstanceAs (Decidable (_ ∧ _))

theorem HoldsWords.width (h : s.HoldsWords a.elem) (hf : s.formatAt? a = some f) :
    f.byteWidth.toNat = a.elem.byteSize := by
  obtain ⟨g, hg, rfl⟩ := Option.map_eq_some_iff.1 hf
  show g.byteWidth.toNat = _
  unfold formatFor? at hg
  dsimp only at hg
  rcases h with ⟨ht, hview⟩
  split at hg
  · rcases ht with ht | ht | ht | ht
    all_goals
      rw [ht] at hg ⊢
      cases hg
      rfl
  · next htyped =>
      cases hg
      exact hview.resolve_left htyped

/-- The first component of the element at `start` lies inside the view and the data. -/
structure ComponentInside (s : Snapshot) (a : ViewAccess) (f : ViewFormat) (start : Nat) : Prop where
  pos : 0 < f.numComps.toNat
  view : start + f.byteWidth.toNat ≤ s.stopOf a f
  data : start + f.byteWidth.toNat ≤ s.data.length

/-- The view has an element of this index, and its first component lies inside the data. -/
structure Reaches (s : Snapshot) (a : ViewAccess) (f : ViewFormat) (index : UInt32) (start : Nat) : Prop where
  has : s.info.Has (s.byByte a) f.byteWidth.toNat index
  data : start + f.byteWidth.toNat ≤ s.data.length

theorem stride_of_byByte (hf : s.formatAt? a = some f) (h : s.byByte a) : f.stride = 1 := by
  obtain ⟨g, -, rfl⟩ := Option.map_eq_some_iff.1 hf
  obtain ⟨hbyte, hnone⟩ := Bool.and_eq_true_iff.1 h
  show a.structStride.getD _ = _
  rw [Option.isNone_iff_eq_none.1 hnone, Option.getD_none, if_pos hbyte]

/-- A view that begins inside of data that are not too long ends at a position that is a word. -/
theorem stopOf_lt (hf : s.formatAt? a = some f) (hbase : s.baseOf a f < 2 ^ 32) : s.stopOf a f < 2 ^ 64 := by
  have hunit := ViewInfo.unit_le (s.byByte a) f.byteWidth.toNat
  have hcount := s.info.numElements.toNat_lt
  have hstride := f.stride.toNat_lt
  have hsplit : s.stopOf a f = s.baseOf a f +
      s.info.numElements.toNat * ViewInfo.unit (s.byByte a) f.byteWidth.toNat * f.stride.toNat :=
    Nat.add_mul ..
  rw [hsplit]
  cases hbyte : s.byByte a with
  | true =>
      have hone : f.stride.toNat = 1 := by rw [stride_of_byByte hf hbyte]; rfl
      rw [hbyte] at hunit
      have hle := Nat.mul_le_mul (Nat.le_of_lt hcount) hunit
      rw [hone, Nat.mul_one]
      omega
  | false =>
      have hle := Nat.mul_le_mul (Nat.le_sub_one_of_lt hcount) (Nat.le_sub_one_of_lt hstride)
      have hone : ViewInfo.unit false f.byteWidth.toNat = 1 := rfl
      rw [hone, Nat.mul_one]
      omega

/-- An element whose first component lies inside the view and the data is found with this component. -/
theorem exists_element?_of_inside (ha : a.address = .buffer index offset) (hf : s.formatAt? a = some f)
    (hwidth : 0 < f.byteWidth.toNat ∧ f.byteWidth.toNat < 10) (hstart : s.startOf a f index offset = start)
    (h : s.ComponentInside a f start) (hlength : s.data.length < 2 ^ 32) :
    ∃ e, s.element? a = some e ∧ s.Found a f start e ∧ 0 < e.format.numComps.toNat := by
  obtain ⟨hpos, hview, hdata⟩ := h
  have hbase : s.baseOf a f ≤ start := hstart ▸ ViewInfo.base_le_start ..
  have hstop := stopOf_lt hf (Nat.lt_of_le_of_lt hbase (by omega))
  have hwhole : s.HasWhole f (s.byByte a) index offset 0 := by
    rw [HasWhole, show s.startIn f (s.byByte a) index offset = start from hstart, Nat.zero_add, Nat.one_mul]
    exact ⟨hdata, hview⟩
  obtain ⟨pos, n, hfound, -, hn⟩ := exists_bufferElement?_of_hasWhole hwidth (by omega) hstop hpos hwhole
  have he : s.element? a =
      some { offset := pos.toNat, format := { f with numComps := n }, requested := f.numComps } := by
    rw [element?_buffer ha, if_neg (by simp [(hwhole.hasElement hwidth.1).data_ne_nil]), hf, Option.bind_some,
      if_neg (hwhole.stride_ne hwidth.1), hfound, Option.map_some]
  exact ⟨_, he, hstart ▸ Found.of_element? ha hf hwidth (by omega) he, hn⟩

theorem HoldsWords.width_bounds (h : s.HoldsWords a.elem) (hf : s.formatAt? a = some f) :
    0 < f.byteWidth.toNat ∧ f.byteWidth.toNat < 10 := by
  rw [h.width hf]
  rcases h.1 with ht | ht | ht | ht <;> rw [ht] <;> decide

/-- An update of a component inside the view and the data gives its word and replaces it. -/
theorem update?_of_inside (ha : a.address = .buffer index offset) (hf : s.formatAt? a = some f)
    (hwords : s.HoldsWords a.elem) (hstart : s.startOf a f index offset = start)
    (h : s.ComponentInside a f start) (hlength : s.data.length < 2 ^ 32) (change : UInt64 → UInt64) :
    s.update? a change = some (s.data.wordAt start a.elem.byteSize,
      s.setWord start a.elem.byteSize (change (s.data.wordAt start a.elem.byteSize))) := by
  obtain ⟨e, he, hfound, hpos⟩ := exists_element?_of_inside ha hf (hwords.width_bounds hf) hstart h hlength
  obtain ⟨old, hupdate, hold⟩ := update?_of_found he hfound hwords.1 (hwords.width hf) change
  rw [hupdate, hold, if_pos hpos]

/-- An update of any other component gives zero. Where it finds an element, it overwrites the first component
    in the data by what it makes of zero. -/
theorem update?_of_outside (ha : a.address = .buffer index offset) (hf : s.formatAt? a = some f)
    (hwords : s.HoldsWords a.elem) (hstart : s.startOf a f index offset = start) (hlt : start < 2 ^ 64)
    (h : ¬ s.ComponentInside a f start) (change : UInt64 → UInt64) :
    s.update? a change = none ∨ s.info.Has (s.byByte a) f.byteWidth.toNat index ∧
      s.update? a change = some (0, s.setWord start a.elem.byteSize (change 0)) := by
  have hbytes := hwords.width_bounds hf
  cases he : s.element? a with
  | none => exact .inl (by rw [update?, he, Option.map_none])
  | some e =>
      have hfound : s.Found a f start e := hstart ▸ Found.of_element? ha hf hbytes (hstart ▸ hlt) he
      obtain ⟨old, hupdate, hold⟩ := update?_of_found he hfound hwords.1 (hwords.width hf) change
      have hnone : ¬ 0 < e.format.numComps.toNat := fun hpos => by
        have hinside := hfound.inside 0 hpos
        rw [Nat.zero_add, Nat.one_mul] at hinside
        have hle := UInt32.le_iff_toNat_le.1 hfound.comps_le
        exact h ⟨by omega, hinside.2, hinside.1⟩
      rw [if_neg hnone] at hold
      refine .inr ⟨?_, hold ▸ hupdate⟩
      rw [element?_eq ha hf hbytes] at he
      split at he
      · next h => exact h.2.1
      · cases he

/-- A word that does not fit is not written. -/
theorem setWord_of_lt {width : Nat} {w : UInt64} (h : s.data.length < start + width) :
    s.setWord start width w = s := by
  rw [setWord, Bytes.setWordAt, Bytes.splice?, Bytes.length_ofWord, if_neg (Nat.not_le_of_lt h)]
  rfl

end Snapshot

end Lockstep
