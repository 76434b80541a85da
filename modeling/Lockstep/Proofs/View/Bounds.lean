import Lockstep.Proofs.View.Window

set_option autoImplicit false

/-! # Where a buffer element lies

The words for the position of a buffer element, for the ends of the view and of the data, and for the
components that are left before them, read as numbers (`Snapshot.element?_eq`). The components that an element
has lie inside the window of the view and inside the data (`Snapshot.Found.of_element?`). -/

namespace Lockstep

/-! ## The window of a view -/

namespace ViewInfo

/-- The number of a buffer element, in what the bounds of a view are counted in: a byte address is rounded down
    to a dword. -/
def ordinal (byByte : Bool) (index : UInt32) : Nat := if byByte then index.toNat / 4 * 4 else index.toNat

/-- The view has an element of this index. -/
def Has (v : ViewInfo) (byByte : Bool) (width : Nat) (index : UInt32) : Prop :=
  ordinal byByte index < v.numElements.toNat * unit byByte width

instance (v : ViewInfo) (byByte : Bool) (width : Nat) (index : UInt32) : Decidable (v.Has byByte width index) :=
  inferInstanceAs (Decidable (_ < _))

/-- The byte where the view begins. -/
def base (v : ViewInfo) (byByte : Bool) (width stride : Nat) : Nat :=
  v.firstElement.toNat * unit byByte width * stride

theorem base_le_start (v : ViewInfo) (byByte : Bool) (width stride : Nat) (index : UInt32) (offset : UInt64) :
    v.base byByte width stride ≤ v.start byByte width stride index offset := by
  refine Nat.le_trans (Nat.mul_le_mul_right stride (Nat.le_add_right _ (ordinal byByte index))) ?_
  exact Nat.le_add_left ..

/-- An element that starts before the end of the view is one of the view. -/
theorem has_of_start_lt_stop {v : ViewInfo} {byByte : Bool} {width stride : Nat} {index : UInt32}
    {offset : UInt64} (h : v.start byByte width stride index offset < v.stop byByte width stride) :
    0 < stride ∧ v.Has byByte width index := by
  refine ⟨Nat.pos_of_ne_zero fun hzero => ?_, Nat.lt_of_not_le fun hle => ?_⟩
  · rw [hzero, stop, Nat.mul_zero] at h
    exact Nat.not_lt_zero _ h
  · have hmul := Nat.mul_le_mul_right stride
      (Nat.add_le_add_left hle (v.firstElement.toNat * unit byByte width))
    exact Nat.not_lt_of_le (Nat.le_trans hmul (Nat.le_add_left _ offset.toNat)) h

end ViewInfo

/-- How many components of a size fit between a position and two ends behind it. -/
def roomFor (width pos stop stop' : Nat) : Nat := min ((stop - pos) / width) ((stop' - pos) / width)

theorem lt_roomFor_iff {width pos stop stop' c : Nat} (hwidth : 0 < width) :
    c < roomFor width pos stop stop' ↔ pos + (c + 1) * width ≤ stop ∧ pos + (c + 1) * width ≤ stop' := by
  have hfits : ∀ e, c < (e - pos) / width ↔ pos + (c + 1) * width ≤ e := fun e => by
    rw [← Nat.succ_le_iff, Nat.le_div_iff_mul_le hwidth]
    have : 0 < (c + 1) * width := Nat.mul_pos (Nat.succ_pos c) hwidth
    show (c + 1) * width ≤ e - pos ↔ _
    omega
  rw [roomFor, Nat.lt_min, hfits, hfits]

theorem roomFor_lt_iff {width pos stop stop' n : Nat} (hwidth : 0 < width) :
    roomFor width pos stop stop' < n ↔ stop - pos < n * width ∨ stop' - pos < n * width := by
  rw [roomFor, ← Nat.div_lt_iff_lt_mul hwidth, ← Nat.div_lt_iff_lt_mul hwidth]
  omega

/-- The word for the components that fit, where a view may end in front of the position. -/
theorem toUInt32_fits (width last : UInt64) {stop pos : UInt64} (h : pos.toNat ≤ stop.toNat) :
    (min ((stop - pos) / width) ((if last < pos then 0 else last - pos) / width)).toUInt32 =
      (roomFor width.toNat pos.toNat stop.toNat last.toNat).toUInt32 := by
  have hlast : (if last < pos then 0 else last - pos : UInt64).toNat = last.toNat - pos.toNat := by
    split
    · next hlt => exact (Nat.sub_eq_zero_of_le (Nat.le_of_lt (UInt64.lt_iff_toNat_lt.1 hlt))).symm
    · next hge => exact UInt64.toNat_sub_of_le _ _ (UInt64.not_lt.1 hge)
  refine UInt32.toNat_inj.1 ?_
  rw [UInt64.toNat_toUInt32, UInt64.toNat_min, UInt64.toNat_div, UInt64.toNat_div, hlast,
    UInt64.toNat_sub_of_le _ _ (UInt64.le_iff_toNat_le.2 h)]
  rfl

namespace Snapshot

variable {s : Snapshot} {f : ViewFormat} {byByte : Bool} {index : UInt32} {offset : UInt64}
  {start stop : Nat}

/-- The format of an element that starts at `start`: what has components of a size holds those that fit. -/
def clipped (s : Snapshot) (f : ViewFormat) (start stop : Nat) : ViewFormat :=
  if f.byteWidth < 10 ∧ f.byteWidth > 0 then { f with
    numComps := min f.numComps
      (roomFor f.byteWidth.toNat (start % 2 ^ 64) (s.data.length % 2 ^ 64) (stop % 2 ^ 64)).toUInt32 }
  else f

/-- The words of `bufferElement?` as numbers; positions and ends beyond the words are wrapped. -/
theorem bufferElement?_eq (hstart : s.info.start byByte f.byteWidth.toNat f.stride.toNat index offset = start)
    (hstop : s.info.stop byByte f.byteWidth.toNat f.stride.toNat = stop) :
    s.bufferElement? f byByte index offset =
      if s.info.Has byByte f.byteWidth.toNat index ∧ start % 2 ^ 64 < s.data.length % 2 ^ 64 then
        some (start.toUInt64, s.clipped f start stop)
      else none := by
  rw [ViewInfo.start, ← ViewInfo.toNat_unit, ← ViewInfo.toNat_index] at hstart
  rw [ViewInfo.stop, ← ViewInfo.toNat_unit] at hstop
  have hhas : s.info.Has byByte f.byteWidth.toNat index ↔
      (if byByte then index.toUInt64 &&& ~~~3 else index.toUInt64).toNat < s.info.numElements.toNat *
        (if byByte then (min f.byteWidth 4).toUInt64 else 1).toNat := by
    rw [ViewInfo.toNat_index, ViewInfo.toNat_unit]
    rfl
  have hunit := ViewInfo.toNat_unit byByte f.byteWidth ▸ ViewInfo.unit_le byByte f.byteWidth.toNat
  have hindexLe : (if byByte then index.toUInt64 &&& ~~~3 else index.toUInt64).toNat < 2 ^ 32 := by
    rw [ViewInfo.toNat_index]
    have := index.toNat_lt
    split <;> omega
  simp only [hhas]
  unfold bufferElement?
  dsimp only
  -- unit, index, first element and number of elements become words of known values, position and end after them
  generalize (if byByte then (min f.byteWidth 4).toUInt64 else 1) = unit at *
  generalize (if byByte then index.toUInt64 &&& ~~~3 else index.toUInt64) = idx at *
  have hscaled : ∀ n : UInt32, (n.toUInt64 * unit).toNat = n.toNat * unit.toNat ∧
      n.toNat * unit.toNat ≤ 2 ^ 32 * 4 := fun n => by
    have hle := Nat.mul_le_mul (Nat.le_of_lt n.toNat_lt) hunit
    exact ⟨toNat_mul_of_lt (Nat.lt_of_le_of_lt hle (by decide)), hle⟩
  obtain ⟨hfirst, hfirstLe⟩ := hscaled s.info.firstElement
  obtain ⟨hcount, hcountLe⟩ := hscaled s.info.numElements
  rw [← hfirst] at hstart hstop hfirstLe
  rw [← hcount] at hstop hcountLe
  rw [← hcount]
  generalize s.info.firstElement.toUInt64 * unit = first at *
  generalize s.info.numElements.toUInt64 * unit = count at *
  have hpos : (offset + (first + idx) * f.stride.toUInt64).toNat = start % 2 ^ 64 := by
    rw [UInt64.toNat_add, UInt64.toNat_mul, toNat_add_of_lt (by omega), Nat.add_mod_mod, ← hstart]
    rfl
  have hlast : ((first + count) * f.stride.toUInt64).toNat = stop % 2 ^ 64 := by
    rw [UInt64.toNat_mul, toNat_add_of_lt (by omega), ← hstop]
    rfl
  have hposWord : offset + (first + idx) * f.stride.toUInt64 = start.toUInt64 := UInt64.toNat_inj.1 hpos
  have hlength : s.length.toNat = s.data.length % 2 ^ 64 := rfl
  generalize offset + (first + idx) * f.stride.toUInt64 = pos at *
  generalize (first + count) * f.stride.toUInt64 = last at *
  by_cases hin : idx.toNat < count.toNat
  · by_cases hbound : start % 2 ^ 64 < s.data.length % 2 ^ 64
    · have hle : pos.toNat ≤ s.length.toNat := by omega
      rw [if_neg (by rw [ge_iff_le, UInt64.le_iff_toNat_le]; omega),
        if_neg (by rw [ge_iff_le, UInt64.le_iff_toNat_le]; omega),
        toUInt32_fits f.byteWidth.toUInt64 last hle, hlength, hpos, hlast, hposWord,
        if_pos (show idx.toNat < count.toNat ∧ _ from ⟨hin, hbound⟩), clipped]
      by_cases hnarrow : f.byteWidth < 10 ∧ f.byteWidth > 0
      · rw [if_pos hnarrow, if_pos hnarrow]
        rfl
      · rw [if_neg hnarrow, if_neg hnarrow]
    · rw [if_neg (by rw [ge_iff_le, UInt64.le_iff_toNat_le]; omega),
        if_pos (by rw [ge_iff_le, UInt64.le_iff_toNat_le]; omega), if_neg (fun h => hbound h.2)]
  · rw [if_pos (by rw [ge_iff_le, UInt64.le_iff_toNat_le]; omega), if_neg (fun h => hin h.1)]

end Snapshot

/-! ## Elements that are found -/

namespace Snapshot

/-- The format in which an access sees the elements, with the distance at which it takes them to be. -/
def formatAt? (s : Snapshot) (a : ViewAccess) : Option ViewFormat :=
  (s.formatFor? a.elem a.columns).map fun f =>
    { f with stride := a.structStride.getD (if s.info.isByteBuffer then 1 else f.stride) }

/-- Whether an access counts elements by byte. -/
def byByte (s : Snapshot) (a : ViewAccess) : Bool := s.info.isByteBuffer && a.structStride.isNone

/-- The byte where the view begins for an access that sees a format. -/
def baseOf (s : Snapshot) (a : ViewAccess) (f : ViewFormat) : Nat :=
  s.info.base (s.byByte a) f.byteWidth.toNat f.stride.toNat

/-- The byte where the view ends for such an access. -/
def stopOf (s : Snapshot) (a : ViewAccess) (f : ViewFormat) : Nat :=
  s.info.stop (s.byByte a) f.byteWidth.toNat f.stride.toNat

/-- The byte where a buffer element starts for such an access. -/
def startOf (s : Snapshot) (a : ViewAccess) (f : ViewFormat) (index : UInt32) (offset : UInt64) : Nat :=
  s.info.start (s.byByte a) f.byteWidth.toNat f.stride.toNat index offset

variable {s : Snapshot} {a : ViewAccess} {f : ViewFormat} {index : UInt32} {offset : UInt64} {e : Element}

theorem element?_buffer (ha : a.address = .buffer index offset) : s.element? a =
    if s.data.isEmpty then none
    else (s.formatAt? a).bind fun f =>
      if f.stride = 0 then none
      else (s.bufferElement? f (s.byByte a) index offset).map fun x =>
        { offset := x.1.toNat, format := x.2, requested := f.numComps } := by
  unfold element? locate? formatAt?
  rw [ha]
  cases s.formatFor? a.elem a.columns <;> rfl

/-- A buffer element is found if its position is before the end of the data and the view has its index. -/
theorem element?_eq (ha : a.address = .buffer index offset) (hf : s.formatAt? a = some f)
    (hwidth : 0 < f.byteWidth.toNat ∧ f.byteWidth.toNat < 10) : s.element? a =
      if f.stride ≠ 0 ∧ s.info.Has (s.byByte a) f.byteWidth.toNat index ∧
          s.startOf a f index offset % 2 ^ 64 < s.data.length % 2 ^ 64 then
        some { offset := s.startOf a f index offset % 2 ^ 64
               format := { f with
                 numComps := min f.numComps (roomFor f.byteWidth.toNat (s.startOf a f index offset % 2 ^ 64)
                   (s.data.length % 2 ^ 64) (s.stopOf a f % 2 ^ 64)).toUInt32 }
               requested := f.numComps }
      else none := by
  have hnarrow : f.byteWidth < 10 ∧ f.byteWidth > 0 := ⟨hwidth.2, hwidth.1⟩
  rw [element?_buffer ha, hf, Option.bind_some, bufferElement?_eq rfl rfl, clipped, if_pos hnarrow]
  by_cases hempty : s.data.isEmpty
  · rw [if_pos hempty, if_neg]
    rintro ⟨-, -, hlt⟩
    rw [List.isEmpty_iff.1 hempty] at hlt
    cases hlt
  · rw [if_neg hempty]
    by_cases hstride : f.stride = 0
    · rw [if_pos hstride, if_neg fun h => h.1 hstride]
    · rw [if_neg hstride]
      split
      · next h => rw [if_pos ⟨hstride, h⟩]; rfl
      · next h => rw [if_neg fun h' => h h'.2]; rfl

/-- What is known of a buffer element that is found: the components that it has lie inside the view and the
    data. -/
structure Found (s : Snapshot) (a : ViewAccess) (f : ViewFormat) (start : Nat) (e : Element) : Prop where
  offset : e.offset = start
  start_lt : start < s.data.length
  format : e.format = { f with numComps := e.format.numComps }
  comps_le : e.format.numComps ≤ f.numComps
  requested : e.requested = f.numComps
  inside : ∀ c < e.format.numComps.toNat,
    start + (c + 1) * f.byteWidth.toNat ≤ s.data.length ∧ start + (c + 1) * f.byteWidth.toNat ≤ s.stopOf a f

theorem Found.of_element? (ha : a.address = .buffer index offset) (hf : s.formatAt? a = some f)
    (hwidth : 0 < f.byteWidth.toNat ∧ f.byteWidth.toNat < 10) (hstart : s.startOf a f index offset < 2 ^ 64)
    (he : s.element? a = some e) : s.Found a f (s.startOf a f index offset) e := by
  rw [element?_eq ha hf hwidth, Nat.mod_eq_of_lt hstart] at he
  split at he
  · next h =>
      cases he
      have hdata := Nat.mod_le s.data.length (2 ^ 64)
      refine ⟨rfl, by omega, rfl, UInt32.le_iff_toNat_le.2 ?_, rfl, fun c hc => ?_⟩
      · rw [UInt32.toNat_min]
        exact Nat.min_le_left ..
      · dsimp only at hc
        rw [UInt32.toNat_min, Nat.lt_min] at hc
        have hroom := (lt_roomFor_iff hwidth.1).1 (Nat.lt_of_lt_of_le hc.2 (Nat.mod_le ..))
        have hstop := Nat.mod_le (s.stopOf a f) (2 ^ 64)
        omega
  · cases he

end Snapshot

end Lockstep
