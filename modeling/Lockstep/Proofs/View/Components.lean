import Lockstep.Proofs.View.Recode
import Mathlib.Data.Nat.Digits.Defs

set_option autoImplicit false

/-! # Components in exact numbers

What the bytes of an element say of its components, and which bytes are left when components are written over
them, in numbers and apart from the words that elements are decoded and encoded with. What is decoded at a position is
`ViewFormat.wideAt` (`ViewFormat.getElem_decode_drop`), and to encode at a position is to overwrite the words of the
components and nothing else (`ViewFormat.writes_encode`). -/

namespace Lockstep

/-! ## Numbers in a string of bytes -/

namespace Bytes

/-- The number that `width` bytes at a position make, the lowest first; zero where they are not all present. -/
def number (bs : Bytes) (start width : Nat) : Nat :=
  if start + width ≤ bs.length then Nat.ofDigits 256 (((bs.drop start).take width).map UInt8.toNat) else 0

theorem toNat_toWord {bs : Bytes} (h : bs.length ≤ 8) : (toWord bs).toNat = Nat.ofDigits 256 (bs.map UInt8.toNat) := by
  induction bs with
  | nil => rfl
  | cons b bs ih =>
      rw [List.length_cons] at h
      have hb : b.toNat < 2 ^ 8 := b.toNat_lt
      have hrest : (toWord bs).toNat < 2 ^ 56 :=
        Nat.lt_of_lt_of_le (toWord_lt bs) (Nat.pow_le_pow_right (by decide) (by omega))
      rw [toNat_toWord_cons, Nat.mod_eq_of_lt (by omega), Nat.or_comm, Nat.mul_comm,
        ← Nat.two_pow_add_eq_or_of_lt (i := 8) hb, ih (by omega), List.map_cons, Nat.ofDigits_cons, Nat.add_comm]

/-- A word that is read is the number there. -/
theorem toNat_wordAt (bs : Bytes) (start : Nat) {width : Nat} (h8 : width ≤ 8) :
    (bs.wordAt start width).toNat = bs.number start width := by
  rw [wordAt_eq, number]
  split
  · exact toNat_toWord (Nat.le_trans (List.length_take_le ..) h8)
  · rfl

/-- Bytes are left of others when numbers of `width` bytes are put side by side, `n` of them from `start` on: a number
    that does not lie inside the bytes is left out, and all other bytes stay. -/
structure Overwritten (bs : Bytes) (start width n : Nat) (word : Nat → Nat) (left : Bytes) : Prop where
  length : left.length = bs.length
  number : ∀ {c}, c < n → start + (c + 1) * width ≤ bs.length →
    left.number (start + c * width) width = word c % 256 ^ width
  rest : ∀ {k}, (∀ c < n, start + (c + 1) * width ≤ bs.length →
    k < start + c * width ∨ start + (c + 1) * width ≤ k) → left[k]? = bs[k]?

theorem number_append (before bs : Bytes) (start width : Nat) :
    (before ++ bs).number (before.length + start) width = bs.number start width := by
  rw [number, number, List.length_append, List.drop_length_add_append, Nat.add_assoc]
  simp only [Nat.add_le_add_iff_left]

theorem number_drop {bs : Bytes} {start : Nat} (h : start ≤ bs.length) (offset width : Nat) :
    number (bs.drop start) offset width = bs.number (start + offset) width := by
  have happend := number_append (bs.take start) (bs.drop start) offset width
  rwa [List.take_append_drop, List.length_take_of_le h, eq_comm] at happend

theorem setWordAt_of_lt {bs : Bytes} {start width : Nat} (h : bs.length < start + width) (w : UInt64) :
    bs.setWordAt start width w = bs := by
  rw [setWordAt, splice?, length_ofWord, if_neg (Nat.not_le_of_lt h)]
  rfl

/-- A byte stays that lies in no word that is written. -/
theorem getElem?_foldl_setWordAt {bs : Bytes} {width n k : Nat} (word : Nat → UInt64)
    (h : ∀ c < n, (c + 1) * width ≤ bs.length → k < c * width ∨ (c + 1) * width ≤ k) :
    ((List.range n).foldl (fun bs c => bs.setWordAt (c * width) width (word c)) bs)[k]? = bs[k]? := by
  induction n with
  | zero => rfl
  | succ n ih =>
      have hlength := length_foldl_setWordAt width word (List.range n) bs
      rw [List.range_succ, List.foldl_append, List.foldl_cons, List.foldl_nil,
        ← ih fun c hc => h c (Nat.lt_succ_of_lt hc)]
      generalize (List.range n).foldl _ bs = before at hlength ⊢
      by_cases hfits : (n + 1) * width ≤ bs.length
      · refine getElem?_setWordAt _ _ ?_
        rw [← Nat.succ_mul]
        exact h n (Nat.lt_succ_self n) hfits
      · rw [setWordAt_of_lt (by rw [hlength, ← Nat.succ_mul]; exact Nat.lt_of_not_le hfits)]

theorem two_pow_eight_mul (width : Nat) : 2 ^ (8 * width) = 256 ^ width := Nat.pow_mul ..

/-- To write words side by side is to overwrite the numbers at their places. -/
theorem overwritten_foldl (bs : Bytes) {width : Nat} (h8 : width ≤ 8) (n : Nat) (word : Nat → UInt64) :
    bs.Overwritten 0 width n (fun c => (word c).toNat)
      ((List.range n).foldl (fun bs c => bs.setWordAt (c * width) width (word c)) bs) := by
  refine ⟨length_foldl_setWordAt .., fun {c} hc hfits => ?_, fun {k} hk => ?_⟩
  · -- a word is cut beforehand, so that it can be read as it was written
    have hcut : (fun (bs : Bytes) c => bs.setWordAt (c * width) width (word c)) =
        fun bs c => bs.setWordAt (c * width) width (word c &&& mask (8 * width)) := by
      funext bs c
      rw [setWordAt_and_mask]
    rw [Nat.zero_add] at hfits
    rw [Nat.zero_add, ← toNat_wordAt _ _ h8, hcut, wordAt_foldl_setWordAt hc hfits (and_mask_lt ..), toNat_and_mask,
      two_pow_eight_mul]
  · refine getElem?_foldl_setWordAt word fun c hc hfits => ?_
    have hin := hk c hc
    simp only [Nat.zero_add] at hin
    exact hin hfits

theorem Overwritten.append {bs left : Bytes} {width n : Nat} {word : Nat → Nat}
    (h : bs.Overwritten 0 width n word left) (before : Bytes) :
    (before ++ bs).Overwritten before.length width n word (before ++ left) := by
  refine ⟨by rw [List.length_append, List.length_append, h.length], fun {c} hc hfits => ?_, fun {k} hk => ?_⟩
  · rw [List.length_append] at hfits
    rw [number_append, ← h.number hc (by omega), Nat.zero_add]
  · by_cases hbefore : k < before.length
    · rw [List.getElem?_append_left hbefore, List.getElem?_append_left hbefore]
    · obtain ⟨j, rfl⟩ := Nat.exists_eq_add_of_le (Nat.le_of_not_lt hbefore)
      rw [List.getElem?_append_right (Nat.le_add_right ..), List.getElem?_append_right (Nat.le_add_right ..),
        Nat.add_sub_cancel_left]
      refine h.rest fun c hc hfits => ?_
      have hin := hk c hc
      rw [List.length_append] at hin
      omega

end Bytes

/-! ## Components and the words of a view -/

/-- The low half of a number that is extended by its sign. -/
theorem signExtend_low {n : Nat} (h0 : 0 < n) (hn : n ≤ 64) (w : UInt64) :
    (signExtend w n).toUInt64 &&& mask 32 = wordOf (BitVec.ofInt 32 (lowBits n w).toInt) := by
  rw [← wordOf_lowBits, lowBits_toUInt64 (by decide), toInt_signExtend_eq h0 hn]

namespace ElemType

theorem bits_bounds (t : ElemType) : 0 < t.bits ∧ t.bits ≤ 64 := by
  cases t <;> decide

/-- What a component is carried as between its type and the bytes of a view. Eight bytes are carried as they are;
    anything else in 32 bits, a float in single precision and an integer with its sign. -/
def carried (t : ElemType) (width : UInt32) (bits : UInt64) : UInt64 :=
  if width = 8 then bits
  else match t with
    | .half => FloatFormat.convert .half .single bits
    | .double => FloatFormat.convert .double .single bits
    | .sByte | .sShort | .sInt | .sLong => wordOf (BitVec.ofInt 32 (lowBits t.bits bits).toInt)
    | _ => wordOf (lowBits 32 bits)

/-- The component for which something is carried. -/
def shown (t : ElemType) (width : UInt32) (wide : UInt64) : UInt64 :=
  if width = 8 then wide
  else match t with
    | .half => FloatFormat.convert .single .half wide
    | .double => FloatFormat.convert .single .double wide
    | .sLong => wordOf (BitVec.ofInt 64 (lowBits 32 wide).toInt)
    | _ => wordOf (lowBits t.bits wide)

theorem toWide_eq (t : ElemType) (width : UInt32) (bits : UInt64) : t.toWide width bits = t.carried width bits := by
  have hsigned := signExtend_low t.bits_bounds.1 t.bits_bounds.2 bits
  have hunsigned : bits &&& 0xffffffff = wordOf (lowBits 32 bits) := (wordOf_lowBits 32 bits).symm
  unfold toWide carried
  split
  · rfl
  · cases t with
    | half | double => rfl
    | sByte | sShort | sInt | sLong => exact hsigned
    | _ => exact hunsigned

theorem ofWide_eq (t : ElemType) (width : UInt32) (wide : UInt64) : t.ofWide width wide = t.shown width wide := by
  have hlong : (signExtend wide 32).toUInt64 = wordOf (BitVec.ofInt 64 (lowBits 32 wide).toInt) := by
    rw [← toInt_signExtend_eq (by decide) (by decide), ← lowBits_toUInt64 (Nat.le_refl 64), wordOf_lowBits]
    exact UInt64.toNat_inj.1 ((toNat_and_mask ..).trans (Nat.mod_eq_of_lt (UInt64.toNat_lt _))).symm
  unfold ofWide shown
  split
  · rfl
  · cases t with
    | half | double => rfl
    | sLong => exact hlong
    | _ => exact (wordOf_lowBits ..).symm

/-- Zero is shown as zero, whatever the type. -/
theorem shown_zero (t : ElemType) (width : UInt32) : t.shown width 0 = 0 := by
  unfold shown
  split
  · rfl
  · cases t <;> decide +kernel

end ElemType

namespace ViewFormat

/-- What a component is carried as whose bytes make a number. Half floats, signed and normalised numbers of one or two
    bytes are converted, all others are the number. -/
def wideOf (f : ViewFormat) (number : Nat) : UInt64 :=
  let bits := 8 * f.byteWidth.toNat
  if 4 ≤ f.byteWidth.toNat then number.toUInt64
  else match f.kind with
    | .float =>
      if f.byteWidth = 2 then FloatFormat.convert .half .single number.toUInt64 else number.toUInt64
    | .uInt | .typeless => number.toUInt64
    | .sInt => wordOf (BitVec.ofInt 32 (BitVec.ofNat bits number).toInt)
    | .uNorm => Normalized.fromUnsigned number.toUInt32 bits
    | .sNorm => Normalized.fromSigned (Int32.ofInt (BitVec.ofNat bits number).toInt) bits

/-- The number that is written to the bytes of a component, without what they do not hold. Signed numbers of one or two
    bytes are clamped. -/
def numberOf (f : ViewFormat) (wide : UInt64) : Nat :=
  let bits := 8 * f.byteWidth.toNat
  if 4 ≤ f.byteWidth.toNat then wide.toNat
  else match f.kind with
    | .float => if f.byteWidth = 2 then (FloatFormat.convert .single .half wide).toNat else wide.toNat
    | .uInt | .typeless => wide.toNat
    | .sInt => (clampLow bits wide % 2 ^ bits).toNat
    | .uNorm => (Normalized.toUnsigned wide bits).toNat
    | .sNorm => ((Normalized.toSigned wide bits).toInt % 2 ^ bits).toNat

variable {f : ViewFormat}

theorem lt_four_iff (f : ViewFormat) : f.byteWidth < 4 ↔ ¬ 4 ≤ f.byteWidth.toNat :=
  UInt32.lt_iff_toNat_lt.trans Nat.not_le.symm

theorem ofWord_eq (h : f.IsPlain) (word : UInt64) : f.ofWord word = f.wideOf word.toNat := by
  have hbounds := h.width_bounds
  have hword : word.toNat.toUInt64 = word := UInt64.ofNat_toNat
  have hbits : BitVec.ofNat (8 * f.byteWidth.toNat) word.toNat = lowBits (8 * f.byteWidth.toNat) word :=
    BitVec.eq_of_toNat_eq (by rw [BitVec.toNat_ofNat, toNat_lowBits])
  have hint := toInt_signExtend_eq (n := 8 * f.byteWidth.toNat) (by omega) (by omega) word
  unfold ofWord wideOf
  dsimp only
  rw [hword, hbits]
  by_cases hwidth : f.byteWidth < 4
  · rw [if_pos hwidth, if_neg ((lt_four_iff f).1 hwidth), widen, Nat.mul_comm f.byteWidth.toNat 8]
    cases f.kind with
    | float | uInt | typeless | uNorm => rfl
    | sInt => exact signExtend_low (by omega) (by omega) word
    | sNorm =>
        dsimp only
        rw [← hint, ← Int64.toInt32_ofInt, Int64.ofInt_toInt]
  · rw [if_neg hwidth, if_pos (Classical.not_not.1 fun h => hwidth ((lt_four_iff f).2 h))]

/-- Of a signed word the low bits are the number modulo their power of two. -/
theorem toNat_and_mask_ofInt {n : Nat} (hn : n ≤ 64) (z : Int64) :
    (z.toUInt64 &&& mask n).toNat = (z.toInt % 2 ^ n).toNat := by
  rw [← wordOf_lowBits, toNat_wordOf hn, lowBits_toUInt64 hn, BitVec.toNat_ofInt]
  norm_cast

theorem toNat_toWord_mod (h : f.IsPlain) (wide : UInt64) :
    (f.toWord wide).toNat % 256 ^ f.byteWidth.toNat = f.numberOf wide % 256 ^ f.byteWidth.toNat := by
  have hbounds := h.width_bounds
  unfold toWord numberOf
  dsimp only
  rw [← Bytes.two_pow_eight_mul]
  by_cases hwidth : f.byteWidth < 4
  · have hfour := (lt_four_iff f).1 hwidth
    rw [if_pos hwidth, if_neg hfour, narrow, Nat.mul_comm f.byteWidth.toNat 8]
    generalize hn : 8 * f.byteWidth.toNat = n
    have hn : 0 < n ∧ n ≤ 24 := by omega
    have hcut : ∀ raw : UInt64, (raw &&& mask n).toNat % 2 ^ n = raw.toNat % 2 ^ n := fun raw => by
      rw [toNat_and_mask, Nat.mod_mod]
    cases f.kind with
    | float =>
        dsimp only
        rw [hcut]
        split <;> rfl
    | uInt | typeless | uNorm => exact hcut _
    | sInt =>
        have hhalf : (2 : Int) ^ (n - 1) ≤ 2 ^ 23 := pow_le_pow_right₀ (by decide) (by omega)
        have hpos : (0 : Int) < 2 ^ (n - 1) := by positivity
        have hrange : (Int64.ofInt (clampLow n wide)).toInt = clampLow n wide := by
          refine Int64.toInt_ofInt_of_le ?_ ?_ <;> unfold clampLow <;> omega
        show ((Int64.ofInt (clampLow n wide)).toUInt64 &&& mask n).toNat % 2 ^ n = _
        rw [toNat_and_mask_ofInt (by omega), hrange]
    | sNorm =>
        dsimp only
        rw [toNat_and_mask_ofInt (by omega), Int32.toInt_toInt64]
  · rw [if_neg hwidth, if_pos (Classical.not_not.1 fun h => hwidth ((lt_four_iff f).2 h))]

/-! ## Elements -/

/-- What a component is carried as of an element that starts at a byte. Of components that lie side by side, those that
    the element does not have are zero, but for a fourth, which is one. Four components may be packed in one number,
    and other formats have nothing but zeros. -/
def wideAt (f : ViewFormat) (bs : Bytes) (start c : Nat) : UInt64 :=
  if f.IsPlain then
    if c < f.numComps.toNat then f.wideOf (bs.number (start + c * f.byteWidth.toNat) f.byteWidth.toNat)
    else if c = 3 then (if f.kind = .float ∨ f.kind = .uNorm ∨ f.kind = .sNorm then 0x3f800000 else 1)
    else 0
  else if f.IsPacked then
    let part := bs.number start 4 / 2 ^ (10 * c) % 2 ^ packedBits c
    if f.kind = .uInt then part.toUInt64 else Normalized.fromUnsigned part.toUInt32 (packedBits c)
  else 0

/-- The number to which four components are packed. -/
def packedNumber (f : ViewFormat) (wide : Nat → UInt64) : Nat :=
  let part c :=
    if f.kind = .uInt then (wide c).toNat % 2 ^ packedBits c
    else (Normalized.toUnsigned (wide c) (packedBits c)).toNat
  part 0 ||| part 1 <<< 10 ||| part 2 <<< 20 ||| part 3 <<< 30

/-- Bytes are left of others when the components of an element that starts at a byte are written. -/
inductive Writes (f : ViewFormat) (wide : Nat → UInt64) (start : Nat) (bs left : Bytes) : Prop
  | plain (hf : f.IsPlain) (h : bs.Overwritten start f.byteWidth.toNat (min f.numComps.toNat 4)
      (fun c => f.numberOf (wide c)) left)
  | packed (hf : f.IsPacked) (h : bs.Overwritten start 4 1 (fun _ => f.packedNumber wide) left)
  | nothing (hplain : ¬ f.IsPlain) (hpacked : ¬ f.IsPacked) (h : left = bs)

theorem isFloatLike_iff (f : ViewFormat) : f.isFloatLike ↔ f.kind = .float ∨ f.kind = .uNorm ∨ f.kind = .sNorm := by
  unfold isFloatLike
  cases f.kind <;> simp

theorem packedPart_wordAt (bs : Bytes) {start c : Nat} (hstart : start ≤ bs.length) (hc : c < 4) :
    packedPart (Bytes.wordAt (bs.drop start) 0 4) c =
      (bs.number start 4 / 2 ^ (10 * c) % 2 ^ packedBits c).toUInt64 := by
  refine UInt64.toNat_inj.1 ?_
  rw [toNat_packedPart _ hc, Bytes.toNat_wordAt _ _ (by decide), Bytes.number_drop hstart, Nat.add_zero]
  refine (Nat.mod_eq_of_lt (Nat.lt_of_lt_of_le (Nat.mod_lt _ (Nat.two_pow_pos _)) ?_)).symm
  exact Nat.pow_le_pow_right (by decide) (by unfold packedBits; split <;> omega)

/-- Any other format decodes nothing. -/
theorem decode_of_not (hplain : ¬ f.IsPlain) (hpacked : ¬ f.IsPacked) (bytes : Bytes) :
    f.decode bytes = Vector.replicate 4 0 := by
  have hwidth : ∀ n : UInt32, f.byteWidth.toNat = n.toNat → f.byteWidth = n := fun n => UInt32.toNat_inj.1
  unfold decode
  split
  · next h10 =>
      split
      · next hkind => exact absurd ⟨hwidth 10 h10, .inl hkind⟩ hpacked
      · next hkind => exact absurd ⟨hwidth 10 h10, .inr hkind⟩ hpacked
      · rfl
  · next h8 => exact absurd (.inr (.inr (.inr (hwidth 8 h8)))) hplain
  · next h4 => exact absurd (.inr (.inr (.inl (hwidth 4 h4)))) hplain
  · next h2 => exact absurd (.inr (.inl (hwidth 2 h2))) hplain
  · next h1 => exact absurd (.inl (hwidth 1 h1)) hplain
  · rfl

/-- What is decoded of an element is what its bytes say. -/
theorem getElem_decode_drop (f : ViewFormat) {bs : Bytes} {start c : Nat} (hstart : start ≤ bs.length) (hc : c < 4) :
    (f.decode (bs.drop start))[c] = f.wideAt bs start c := by
  unfold wideAt
  by_cases hplain : f.IsPlain
  · have hcomp : c < f.comps ↔ c < f.numComps.toNat := by
      unfold comps
      omega
    rw [if_pos hplain, decode_of_isPlain hplain, decodeComps, Vector.getElem_ofFn]
    simp only [hcomp, isFloatLike_iff, ofWord_eq hplain, Bytes.toNat_wordAt _ _ hplain.width_bounds.2,
      Bytes.number_drop hstart]
    rfl
  · rw [if_neg hplain]
    by_cases hpacked : f.IsPacked
    · have hpart := packedPart_wordAt bs hstart hc
      rw [if_pos hpacked]
      unfold decode
      rw [hpacked.1]
      rcases hpacked.2 with hkind | hkind
      · simp only [hkind]
        rw [if_pos trivial, ← hpart]
        exact Vector.getElem_ofFn ..
      · simp only [hkind]
        refine (Vector.getElem_ofFn ..).trans ?_
        rw [if_neg (by decide), hpart]
        refine congrArg (Normalized.fromUnsigned · _) (UInt32.toNat_inj.1 ?_)
        rw [UInt64.toNat_toUInt32]
        exact Nat.mod_mod_of_dvd _ (by decide)
    · rw [if_neg hpacked]
      simp only [decode_of_not hplain hpacked, Vector.getElem_replicate]

theorem toNat_packed_eq {part : Nat → UInt64} (h : ∀ c, (part c).toNat < 2 ^ 32) : (packed part).toNat =
    (part 0).toNat ||| (part 1).toNat <<< 10 ||| (part 2).toNat <<< 20 ||| (part 3).toNat <<< 30 := by
  have hshift : ∀ (c : Nat) (n : Nat) (w : UInt64), n ≤ 30 → w.toNat = n →
      (part c <<< w).toNat = (part c).toNat <<< n := by
    intro c n w hn hw
    have hlt := h c
    have hpow : 2 ^ n ≤ 2 ^ 30 := Nat.pow_le_pow_right (by decide) hn
    rw [UInt64.toNat_shiftLeft, hw, Nat.mod_eq_of_lt (a := n) (by omega), Nat.shiftLeft_eq]
    exact Nat.mod_eq_of_lt (Nat.lt_of_lt_of_le (Nat.mul_lt_mul'' hlt (Nat.lt_succ_of_le hpow)) (by decide))
  rw [packed, UInt64.toNat_or, UInt64.toNat_or, UInt64.toNat_or, hshift 1 10 10 (by decide) rfl,
    hshift 2 20 20 (by decide) rfl, hshift 3 30 30 (by decide) rfl]

/-- The word to which the components of an element are packed is their number. -/
theorem toNat_packed_packedParts (texel : Texel) :
    (packed (f.packedParts texel)).toNat = f.packedNumber fun c => texel[c]?.getD 0 := by
  have hpart : ∀ c, (f.packedParts texel c).toNat =
      if f.kind = .uInt then (texel[c]?.getD 0).toNat % 2 ^ packedBits c
      else (Normalized.toUnsigned (texel[c]?.getD 0) (packedBits c)).toNat := by
    intro c
    unfold packedParts
    split
    · exact toNat_and_mask ..
    · rfl
  have hlt : ∀ c, (f.packedParts texel c).toNat < 2 ^ 32 := by
    intro c
    rw [hpart]
    split
    · refine Nat.lt_of_lt_of_le (Nat.mod_lt _ (Nat.two_pow_pos _)) (Nat.pow_le_pow_right (by decide) ?_)
      unfold packedBits
      split <;> omega
    · exact UInt32.toNat_lt _
  rw [toNat_packed_eq hlt, packedNumber]
  simp only [hpart]

/-- To encode an element is to write its components. -/
theorem writes_encode (f : ViewFormat) (texel : Texel) {start : Nat} {bs : Bytes} (hstart : start ≤ bs.length) :
    f.Writes (fun c => texel[c]?.getD 0) start bs (bs.take start ++ f.encode texel (bs.drop start)) := by
  have hlength : (bs.take start).length = start := List.length_take_of_le hstart
  by_cases hplain : f.IsPlain
  · have h := (Bytes.overwritten_foldl (bs.drop start) hplain.width_bounds.2 f.comps
      fun c => f.toWord (texel[c]?.getD 0)).append (bs.take start)
    rw [List.take_append_drop, hlength] at h
    refine .plain hplain ?_
    rw [encode_of_isPlain hplain]
    exact ⟨h.length, fun hc hfits => (h.number hc hfits).trans (toNat_toWord_mod hplain _), h.rest⟩
  · by_cases hpacked : f.IsPacked
    · have h := (Bytes.overwritten_foldl (bs.drop start) (by decide : 4 ≤ 8) 1
        fun _ => packed (f.packedParts texel)).append (bs.take start)
      rw [List.take_append_drop, hlength, toNat_packed_packedParts] at h
      refine .packed hpacked ?_
      rw [encode_of_isPacked hpacked]
      exact h
    · refine .nothing hplain hpacked ?_
      rw [encode_of_not hplain hpacked, List.take_append_drop]

end ViewFormat

end Lockstep
