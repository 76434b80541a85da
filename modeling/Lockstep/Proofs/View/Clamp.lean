import Lockstep.Proofs.View.Bounds

set_option autoImplicit false

/-! # The components that an element is left with

A buffer element should have those components of its format that lie whole inside the view and the data
(`Snapshot.Clamps`). Their number is cut to 32 bits, so this holds exactly when nothing is cut off, or when the
format has no more components than what remains (`Snapshot.bufferElement?_clamps_iff`). It holds where the data or
the view have fewer than `2 ^ 32` components (`Snapshot.bufferElement?_clamps`), and of every byte address. -/

namespace Lockstep

namespace Snapshot

variable {s : Snapshot} {f : ViewFormat} {byByte : Bool} {index : UInt32} {offset : UInt64}

/-! ## Components inside the view and the data -/

/-- The byte where a buffer element starts that is seen in a format. -/
def startIn (s : Snapshot) (f : ViewFormat) (byByte : Bool) (index : UInt32) (offset : UInt64) : Nat :=
  s.info.start byByte f.byteWidth.toNat f.stride.toNat index offset

/-- The byte where the view ends that is seen in a format. -/
def stopIn (s : Snapshot) (f : ViewFormat) (byByte : Bool) : Nat :=
  s.info.stop byByte f.byteWidth.toNat f.stride.toNat

/-- The view has the index of a buffer element, and the data have its position. -/
def HasElement (s : Snapshot) (f : ViewFormat) (byByte : Bool) (index : UInt32) (offset : UInt64) : Prop :=
  s.info.Has byByte f.byteWidth.toNat index ∧ s.startIn f byByte index offset < s.data.length

instance : Decidable (s.HasElement f byByte index offset) := inferInstanceAs (Decidable (_ ∧ _))

/-- A component of a buffer element lies whole inside the view and the data. -/
def HasWhole (s : Snapshot) (f : ViewFormat) (byByte : Bool) (index : UInt32) (offset : UInt64) (c : Nat) : Prop :=
  s.startIn f byByte index offset + (c + 1) * f.byteWidth.toNat ≤ s.data.length ∧
    s.startIn f byByte index offset + (c + 1) * f.byteWidth.toNat ≤ s.stopIn f byByte

/-- An answer is none where there is no buffer element, and is otherwise its position, and its format with the
    components that lie whole inside the view and the data. -/
def Clamps (s : Snapshot) (f : ViewFormat) (byByte : Bool) (index : UInt32) (offset : UInt64) :
    Option (UInt64 × ViewFormat) → Prop
  | none => ¬ s.HasElement f byByte index offset
  | some (pos, g) => s.HasElement f byByte index offset ∧ pos.toNat = s.startIn f byByte index offset ∧
      g = { f with numComps := g.numComps } ∧
      ∀ c, c < g.numComps.toNat ↔ c < f.numComps.toNat ∧ s.HasWhole f byByte index offset c

/-- How many components of a buffer element lie whole inside the view and the data. -/
def room (s : Snapshot) (f : ViewFormat) (byByte : Bool) (index : UInt32) (offset : UInt64) : Nat :=
  roomFor f.byteWidth.toNat (s.startIn f byByte index offset) s.data.length (s.stopIn f byByte)

theorem HasElement.data_ne_nil (h : s.HasElement f byByte index offset) : s.data ≠ [] :=
  List.ne_nil_of_length_pos (Nat.lt_of_le_of_lt (Nat.zero_le _) h.2)

namespace HasWhole

variable {c : Nat}

theorem start_lt (h : s.HasWhole f byByte index offset c) (hwidth : 0 < f.byteWidth.toNat) :
    s.startIn f byByte index offset < s.data.length ∧ s.startIn f byByte index offset < s.stopIn f byByte := by
  have hpos := Nat.mul_pos (Nat.succ_pos c) hwidth
  have hlt := Nat.lt_add_of_pos_right (n := s.startIn f byByte index offset) hpos
  exact ⟨Nat.lt_of_lt_of_le hlt h.1, Nat.lt_of_lt_of_le hlt h.2⟩

theorem hasElement (h : s.HasWhole f byByte index offset c) (hwidth : 0 < f.byteWidth.toNat) :
    s.HasElement f byByte index offset :=
  ⟨(ViewInfo.has_of_start_lt_stop (h.start_lt hwidth).2).2, (h.start_lt hwidth).1⟩

/-- A view whose elements have no distance is empty. -/
theorem stride_ne (h : s.HasWhole f byByte index offset c) (hwidth : 0 < f.byteWidth.toNat) : f.stride ≠ 0 :=
  fun hzero => Nat.ne_of_gt (ViewInfo.has_of_start_lt_stop (h.start_lt hwidth).2).1 (congrArg UInt32.toNat hzero)

end HasWhole

theorem lt_room_iff (hwidth : 0 < f.byteWidth.toNat) {c : Nat} :
    c < s.room f byByte index offset ↔ s.HasWhole f byByte index offset c :=
  lt_roomFor_iff hwidth

/-! ## The number of components as a word -/

/-- What remains of a number in 32 bits bounds the components that are asked for as the number itself does exactly
    when nothing is cut off, or when no more are asked for than what remains. -/
theorem lt_min_rest_iff {asked room : Nat} :
    (∀ c, c < min asked (room % 2 ^ 32) ↔ c < asked ∧ c < room) ↔
      room < 2 ^ 32 ∨ asked ≤ room % 2 ^ 32 := by
  constructor
  · intro h
    have hrest := h (room % 2 ^ 32)
    omega
  · rintro (hlt | hasked) c
    · rw [Nat.mod_eq_of_lt hlt, Nat.lt_min]
    · omega

/-- If positions and ends do not overflow, the answer is exact but for the number of components that fit, of which
    the low 32 bits are taken. -/
theorem bufferElement?_eq_of_lt (hwidth : 0 < f.byteWidth.toNat ∧ f.byteWidth.toNat < 10)
    (hlength : s.data.length < 2 ^ 64) (hstart : s.startIn f byByte index offset < 2 ^ 64)
    (hstop : s.stopIn f byByte < 2 ^ 64) :
    s.bufferElement? f byByte index offset =
      if s.HasElement f byByte index offset then
        some ((s.startIn f byByte index offset).toUInt64,
          { f with numComps := min f.numComps (s.room f byByte index offset).toUInt32 })
      else none := by
  have hnarrow : f.byteWidth < 10 ∧ f.byteWidth > 0 := ⟨hwidth.2, hwidth.1⟩
  rw [bufferElement?_eq (show _ = s.startIn f byByte index offset from rfl) (show _ = s.stopIn f byByte from rfl),
    clipped, if_pos hnarrow, Nat.mod_eq_of_lt hlength, Nat.mod_eq_of_lt hstart, Nat.mod_eq_of_lt hstop]
  rfl

/-- A buffer element is left with the components that fit exactly when their number has 32 bits, or when its format
    has no more components than the low 32 bits of the number. -/
theorem bufferElement?_clamps_iff (hwidth : 0 < f.byteWidth.toNat ∧ f.byteWidth.toNat < 10)
    (hlength : s.data.length < 2 ^ 64) (hstart : s.startIn f byByte index offset < 2 ^ 64)
    (hstop : s.stopIn f byByte < 2 ^ 64) :
    s.Clamps f byByte index offset (s.bufferElement? f byByte index offset) ↔
      (s.HasElement f byByte index offset → s.room f byByte index offset < 2 ^ 32 ∨
        f.numComps.toNat ≤ s.room f byByte index offset % 2 ^ 32) := by
  rw [bufferElement?_eq_of_lt hwidth hlength hstart hstop]
  by_cases hhas : s.HasElement f byByte index offset
  · have hcomps : (min f.numComps (s.room f byByte index offset).toUInt32).toNat =
        min f.numComps.toNat (s.room f byByte index offset % 2 ^ 32) := UInt32.toNat_min ..
    have hpos : (s.startIn f byByte index offset).toUInt64.toNat = s.startIn f byByte index offset :=
      Nat.mod_eq_of_lt hstart
    rw [if_pos hhas, ← lt_min_rest_iff, Clamps, hcomps]
    simp only [hhas, hpos, true_and, forall_const, lt_room_iff hwidth.1]
  · rw [if_neg hhas, Clamps]
    simp only [hhas, not_false_eq_true, false_implies]

/-- A buffer of so many bytes, all sevens, of which a view of `2 ^ 30` elements takes four at a time. -/
def sevens (bytes : Nat) : Snapshot :=
  { info := { numElements := 0x40000000, format := .new 1 4 .uInt }, data := List.replicate bytes 7 }

/-- A load of the first of these elements. -/
def firstElementLoad : ViewAccess := { structStride := none, elem := .uInt, columns := 4, address := .buffer 0 0 }

theorem length_sevens (bytes : Nat) : (sevens bytes).data.length = bytes := List.length_replicate

/-- The first element of `2 ^ 32` bytes is not left with its four components, since nothing remains of their
    number. -/
theorem sevens_is_cut : ¬ (sevens (2 ^ 32)).Clamps (.new 1 4 .uInt) false 0 0
    ((sevens (2 ^ 32)).bufferElement? (.new 1 4 .uInt) false 0 0) := by
  -- the length is put in before anything is decided, as nothing of this size can be evaluated
  rw [bufferElement?_clamps_iff (by decide) (by rw [length_sevens]; decide) (by decide) (by decide), HasElement, room,
    length_sevens]
  decide

/-- So it is loaded as zeros. -/
theorem sevens_reads_zero : (sevens (2 ^ 32)).load? firstElementLoad = some (Vector.replicate 4 0) := by
  obtain ⟨e, he⟩ : ∃ e, Element.mk 0 { (ViewFormat.new 1 4 .uInt) with numComps := 0 } 4 = e := ⟨_, rfl⟩
  have hformat : (sevens (2 ^ 32)).formatAt? firstElementLoad = some (.new 1 4 .uInt) := rfl
  have helement : (sevens (2 ^ 32)).element? firstElementLoad = some e := by
    rw [element?_eq rfl hformat (by decide), length_sevens, ← he]
    rfl
  have hcut : ∀ c, isCut e c := fun c => by
    rw [← he]
    exact Bool.and_eq_true_iff.2 ⟨rfl, decide_eq_true (Nat.zero_le c)⟩
  rw [load?, helement, Option.map_some]
  refine congrArg some (Vector.ext fun c hc => ?_)
  rw [Vector.getElem_ofFn, Vector.getElem_replicate, if_pos (hcut c), ← he]
  rfl

/-! ## Fewer than `2 ^ 32` components -/

/-- No more of a view lies behind the position of a buffer element than it has elements. -/
theorem stopIn_le (s : Snapshot) (f : ViewFormat) (byByte : Bool) (index : UInt32) (offset : UInt64) :
    s.stopIn f byByte ≤ s.startIn f byByte index offset +
      s.info.numElements.toNat * ViewInfo.unit byByte f.byteWidth.toNat * f.stride.toNat := by
  have hbase := ViewInfo.base_le_start s.info byByte f.byteWidth.toNat f.stride.toNat index offset
  rw [ViewInfo.base] at hbase
  rw [stopIn, ViewInfo.stop, Nat.add_mul]
  exact Nat.add_le_add_right hbase _

/-- A buffer element is left with the components that fit if the data or the view hold fewer than `2 ^ 32`. -/
theorem bufferElement?_clamps (hwidth : 0 < f.byteWidth.toNat ∧ f.byteWidth.toNat < 10)
    (hlength : s.data.length < 2 ^ 64) (hstart : s.startIn f byByte index offset < 2 ^ 64)
    (hstop : s.stopIn f byByte < 2 ^ 64)
    (h : s.data.length < 2 ^ 32 * f.byteWidth.toNat ∨
      s.info.numElements.toNat * ViewInfo.unit byByte f.byteWidth.toNat * f.stride.toNat <
        2 ^ 32 * f.byteWidth.toNat) :
    s.Clamps f byByte index offset (s.bufferElement? f byByte index offset) := by
  refine (bufferElement?_clamps_iff hwidth hlength hstart hstop).2 fun _ => .inl ?_
  have hview := s.stopIn_le f byByte index offset
  exact (roomFor_lt_iff hwidth.1).2 (by omega)

/-- A buffer element that has a component whole is found with this component. -/
theorem exists_bufferElement?_of_hasWhole (hwidth : 0 < f.byteWidth.toNat ∧ f.byteWidth.toNat < 10)
    (hlength : s.data.length < 2 ^ 32 * f.byteWidth.toNat) (hstop : s.stopIn f byByte < 2 ^ 64) {c : Nat}
    (hc : c < f.numComps.toNat) (hwhole : s.HasWhole f byByte index offset c) :
    ∃ pos n, s.bufferElement? f byByte index offset = some (pos, { f with numComps := n }) ∧
      pos.toNat = s.startIn f byByte index offset ∧ c < n.toNat := by
  have hstart := (hwhole.start_lt hwidth.1).2
  have hclamps : s.Clamps f byByte index offset (s.bufferElement? f byByte index offset) :=
    bufferElement?_clamps hwidth (by omega) (by omega) hstop (.inl hlength)
  cases hfound : s.bufferElement? f byByte index offset with
  | none =>
      rw [hfound] at hclamps
      exact absurd (hwhole.hasElement hwidth.1) hclamps
  | some e =>
      rw [hfound] at hclamps
      obtain ⟨-, hpos, hformat, hcomps⟩ := hclamps
      exact ⟨e.1, e.2.numComps, congrArg some (Prod.ext rfl hformat), hpos, (hcomps c).2 ⟨hc, hwhole⟩⟩

/-- A view that is addressed by byte has no more components than elements, so every byte address is left with those
    that fit. -/
theorem bufferElement?_clamps_byByte (hwidth : 0 < f.byteWidth.toNat ∧ f.byteWidth.toNat < 10)
    (hstride : f.stride = 1) (hlength : s.data.length < 2 ^ 64) (hstart : s.startIn f true index offset < 2 ^ 64) :
    s.Clamps f true index offset (s.bufferElement? f true index offset) := by
  have hunit : ViewInfo.unit true f.byteWidth.toNat ≤ f.byteWidth.toNat := Nat.min_le_left ..
  have hcount : ∀ n : UInt32, n.toNat * ViewInfo.unit true f.byteWidth.toNat < 2 ^ 32 * f.byteWidth.toNat := fun n =>
    Nat.lt_of_le_of_lt (Nat.mul_le_mul_left _ hunit) (Nat.mul_lt_mul_of_pos_right n.toNat_lt hwidth.1)
  have hfirst := hcount s.info.firstElement
  have hnum := hcount s.info.numElements
  have hone : f.stride.toNat = 1 := congrArg UInt32.toNat hstride
  refine bufferElement?_clamps hwidth hlength hstart ?_ (.inr ?_)
  · rw [stopIn, ViewInfo.stop, hone]
    omega
  · rw [hone]
    omega

end Snapshot

end Lockstep
