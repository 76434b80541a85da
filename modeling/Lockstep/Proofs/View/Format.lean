import Lockstep.View.Format
import Lockstep.Proofs.Memory
import Lockstep.Proofs.Shape
import Lockstep.Proofs.Integer
import Mathlib.Algebra.Group.Int.Defs

set_option autoImplicit false

/-! # Formats that keep every bit

Where a format carries an element type, a component that is encoded and decoded comes back bit by bit
(`ViewFormat.ofWide_ofWord`, `ViewFormat.toWord_toWide`), and so do all components of an element that lie
side by side (`ViewFormat.ofWide_decode_encode`). -/

namespace Lockstep

/-! ## Signed numbers of a width -/

theorem toInt_signExtend {w : UInt64} {n : Nat} (h0 : 0 < n) (h64 : n < 64) (hw : w.toNat < 2 ^ n) :
    (signExtend w n).toInt = if w.toNat < 2 ^ (n - 1) then (w.toNat : Int) else w.toNat - 2 ^ n := by
  have hhalf : 2 ^ n = 2 ^ (n - 1) * 2 := by rw [← Nat.pow_succ]; congr 1; omega
  rw [toInt_signExtend_eq h0 (Nat.le_of_lt h64), BitVec.toInt_eq_toNat_cond, toNat_lowBits, Nat.mod_eq_of_lt hw]
  split <;> split <;> first | omega | push_cast; rfl

/-- The low 32 bits of a sign extension. -/
theorem toNat_signExtend_low {w : UInt64} {n : Nat} (hn : n = 8 ∨ n = 16 ∨ n = 32) (hw : w.toNat < 2 ^ n) :
    ((signExtend w n).toUInt64 &&& 0xffffffff).toNat =
      if w.toNat < 2 ^ (n - 1) then w.toNat else w.toNat + 2 ^ 32 - 2 ^ n := by
  have hint := toInt_signExtend (w := w) (n := n) (by omega) (by omega) hw
  rw [← Int64.toInt_toBitVec, BitVec.toInt_eq_toNat_cond, Int64.toNat_toBitVec] at hint
  rw [show (0xffffffff : UInt64) = mask 32 from rfl, toNat_and_mask]
  have := (signExtend w n).toUInt64.toNat_lt
  rcases hn with rfl | rfl | rfl <;> split at hint <;> split at hint <;> split <;> omega

/-- Cutting a sign extension back to its width gives the word. -/
theorem signExtend_low_and_mask {w : UInt64} {n : Nat} (hn : n = 8 ∨ n = 16 ∨ n = 32) (hw : w.toNat < 2 ^ n) :
    ((signExtend w n).toUInt64 &&& 0xffffffff) &&& mask n = w := by
  refine UInt64.toNat_inj.1 ?_
  rw [toNat_and_mask, toNat_signExtend_low hn hw]
  rcases hn with rfl | rfl | rfl <;> split <;> omega

/-- A sign extension lies within its width, so that clamping leaves it alone. -/
theorem clamp_signExtend_low {w : UInt64} {n : Nat} (hn : n = 8 ∨ n = 16) (hw : w.toNat < 2 ^ n) :
    let v := ((signExtend w n).toUInt64 &&& 0xffffffff).toUInt32.toInt32.toInt
    (Int64.ofInt (max (-(Nat.pow 2 (n - 1) : Int)) (min v (Nat.pow 2 (n - 1) - 1)))).toUInt64 &&& mask n =
      w := by
  intro v
  have hlow := toNat_signExtend_low (w := w) (n := n) (by omega) hw
  have hv : v = if w.toNat < 2 ^ (n - 1) then (w.toNat : Int) else w.toNat - 2 ^ n := by
    show ((signExtend w n).toUInt64 &&& 0xffffffff).toUInt32.toBitVec.toInt = _
    rw [BitVec.toInt_eq_toNat_cond, UInt32.toNat_toBitVec, UInt64.toNat_toUInt32, hlow]
    rcases hn with rfl | rfl <;> split <;> split <;> omega
  have hclamp : max (-(Nat.pow 2 (n - 1) : Int)) (min v (Nat.pow 2 (n - 1) - 1)) = v := by
    rw [hv]
    rcases hn with rfl | rfl <;> split <;> simp only [Nat.pow_eq] <;> omega
  rw [hclamp]
  refine UInt64.toNat_inj.1 ?_
  have hword : (Int64.ofInt v).toUInt64.toNat = (v % 2 ^ 64).toNat := by
    rw [← Int64.toNat_toBitVec, Int64.toBitVec_ofInt, BitVec.toNat_ofInt]
    rfl
  clear hclamp
  rw [toNat_and_mask, hword, hv]
  rcases hn with rfl | rfl <;> split <;> omega

/-! ## Components -/

/-- The element types whose components keep every bit on their way to a buffer and back. -/
def ElemType.isExact : ElemType → Bool
  | .sByte | .sShort | .sInt | .sLong | .float | .double => true
  | _ => false

namespace ViewFormat

/-- The format has components of an element type's size; narrow ones are signed. -/
def Carries (f : ViewFormat) (t : ElemType) : Prop :=
  t.isExact ∧ f.byteWidth.toNat = t.byteSize ∧ (t.byteSize < 4 → f.kind = .sInt)

instance (f : ViewFormat) (t : ElemType) : Decidable (f.Carries t) := inferInstanceAs (Decidable (_ ∧ _))

/-- The word that `encode` writes for a wide component. -/
def toWord (f : ViewFormat) (wide : UInt64) : UInt64 := if f.byteWidth < 4 then f.narrow wide else wide

/-- The wide component that `decode` gives for a word. -/
def ofWord (f : ViewFormat) (word : UInt64) : UInt64 := if f.byteWidth < 4 then f.widen word else word

variable {f g : ViewFormat} {t : ElemType}

theorem Carries.width_lt (h : f.Carries t) : f.byteWidth < 4 ↔ t.byteSize < 4 := by
  rw [UInt32.lt_iff_toNat_lt, h.2.1]
  rfl

theorem Carries.width_eq (h : f.Carries t) : f.byteWidth = 8 ↔ t.byteSize = 8 := by
  rw [← UInt32.toNat_inj, h.2.1]
  rfl

theorem encode_of_carries (h : f.Carries t) (texel : Texel) (bytes : Bytes) :
    f.encode texel bytes = f.encodeComps t.byteSize (fun c => f.toWord (texel[c]?.getD 0)) bytes := by
  unfold encode toWord
  simp only [h.2.1, h.width_lt]
  have hexact := h.1
  cases t with
  | sByte | sShort | sInt | sLong | float | double => rfl
  | _ => cases hexact

theorem decode_of_carries (h : f.Carries t) (bytes : Bytes) :
    f.decode bytes = f.decodeComps fun c => f.ofWord (bytes.wordAt (c * t.byteSize) t.byteSize) := by
  unfold decode ofWord
  simp only [h.2.1, h.width_lt]
  have hexact := h.1
  cases t with
  | sByte =>
      simp only [ElemType.byteSize, Nat.mul_one]
      rfl
  | sShort | sInt | sLong | float | double => rfl
  | _ => cases hexact

/-- The word that is written for a component has the component's bits. -/
theorem toWord_toWide (h : f.Carries t) {bits : UInt64} (hbits : bits.toNat < 2 ^ t.bits) :
    f.toWord (t.toWide f.byteWidth bits) = bits := by
  unfold toWord ElemType.toWide narrow
  simp only [h.width_lt, h.width_eq, h.2.1]
  have hexact := h.1
  have hkind := h.2.2
  cases t with
  | sByte =>
      rw [hkind (by decide)]
      exact clamp_signExtend_low (.inl rfl) hbits
  | sShort =>
      rw [hkind (by decide)]
      exact clamp_signExtend_low (.inr rfl) hbits
  | sInt =>
      have h32 := toNat_signExtend_low (.inr (.inr rfl)) hbits
      refine UInt64.toNat_inj.1 (h32.trans ?_)
      split <;> omega
  | float =>
      refine UInt64.toNat_inj.1 ((toNat_and_mask bits 32).trans (Nat.mod_eq_of_lt hbits))
  | sLong | double => rfl
  | _ => cases hexact

/-- The component of a word has the word's bits. -/
theorem ofWide_ofWord (h : f.Carries t) {bits : UInt64} (hbits : bits.toNat < 2 ^ t.bits) :
    t.ofWide f.byteWidth (f.ofWord bits) = bits := by
  have hmask : bits &&& mask t.bits = bits :=
    UInt64.toNat_inj.1 ((toNat_and_mask bits t.bits).trans (Nat.mod_eq_of_lt hbits))
  unfold ofWord ElemType.ofWide widen
  simp only [h.width_lt, h.width_eq, h.2.1]
  have hexact := h.1
  have hkind := h.2.2
  cases t with
  | sByte =>
      rw [hkind (by decide)]
      exact signExtend_low_and_mask (.inl rfl) hbits
  | sShort =>
      rw [hkind (by decide)]
      exact signExtend_low_and_mask (.inr (.inl rfl)) hbits
  | sInt | float => exact hmask
  | sLong | double => rfl
  | _ => cases hexact

end ViewFormat

/-! ## Elements -/

namespace Bytes

theorem setWordAt_eq {bs : Bytes} {start width : Nat} (h : start + width ≤ bs.length) (w : UInt64) :
    bs.setWordAt start width w = bs.take start ++ ofWord w width ++ bs.drop (start + width) := by
  unfold setWordAt splice?
  rw [length_ofWord, if_pos h]
  rfl

theorem length_setWordAt (bs : Bytes) (start width : Nat) (w : UInt64) :
    (bs.setWordAt start width w).length = bs.length := by
  unfold setWordAt
  cases h : bs.splice? start (ofWord w width) with
  | none => rfl
  | some out => exact length_splice? h

theorem wordAt_setWordAt_self {bs : Bytes} {start width : Nat} (h : start + width ≤ bs.length) {w : UInt64}
    (hw : w.toNat < 2 ^ (8 * width)) : (bs.setWordAt start width w).wordAt start width = w := by
  rw [wordAt_eq, length_setWordAt, if_pos h, setWordAt_eq h, List.append_assoc]
  have hlength : (bs.take start).length = start := List.length_take_of_le (by omega)
  rw [List.drop_left' hlength, List.take_left' (length_ofWord w width), toWord_ofWord hw]

/-- A byte outside of the word that is written stays. -/
theorem getElem?_setWordAt (bs : Bytes) {start width k : Nat} (w : UInt64) (h : k < start ∨ start + width ≤ k) :
    (bs.setWordAt start width w)[k]? = bs[k]? := by
  unfold setWordAt
  cases hsplice : bs.splice? start (ofWord w width) with
  | none => rfl
  | some out =>
      rw [Option.getD_some, getElem?_splice? hsplice, if_neg]
      rw [length_ofWord]
      omega

/-- A word stays when one in front of it or behind it is written. -/
theorem wordAt_setWordAt (bs : Bytes) {start width start' width' : Nat} (w : UInt64)
    (h : start + width ≤ start' ∨ start' + width' ≤ start) :
    (bs.setWordAt start' width' w).wordAt start width = bs.wordAt start width := by
  have hword : ((bs.setWordAt start' width' w).drop start).take width = (bs.drop start).take width := by
    refine List.ext_getElem? fun k => ?_
    rw [List.getElem?_take, List.getElem?_take, List.getElem?_drop, List.getElem?_drop]
    split
    · exact getElem?_setWordAt _ _ (by omega)
    · rfl
  rw [wordAt_eq, wordAt_eq, length_setWordAt, hword]

/-- Words that are written side by side keep the length. -/
theorem length_foldl_setWordAt (width : Nat) (word : Nat → UInt64) (cs : List Nat) (bs : Bytes) :
    (cs.foldl (fun bs c => bs.setWordAt (c * width) width (word c)) bs).length = bs.length := by
  induction cs generalizing bs with
  | nil => rfl
  | cons c cs ih => rw [List.foldl_cons, ih, length_setWordAt]

/-- Of words that are written side by side, one that lies inside is found in its place. -/
theorem wordAt_foldl_setWordAt {width : Nat} {word : Nat → UInt64} {n c : Nat} {bs : Bytes} (hc : c < n)
    (hfits : (c + 1) * width ≤ bs.length) (hword : (word c).toNat < 2 ^ (8 * width)) :
    wordAt ((List.range n).foldl (fun bs c => bs.setWordAt (c * width) width (word c)) bs) (c * width) width =
      word c := by
  induction n with
  | zero => cases hc
  | succ n ih =>
      rw [List.range_succ, List.foldl_append, List.foldl_cons, List.foldl_nil]
      rcases Nat.lt_succ_iff_lt_or_eq.1 hc with hlt | rfl
      · rw [wordAt_setWordAt _ _ (.inl (by rw [← Nat.succ_mul]; exact Nat.mul_le_mul_right _ hlt))]
        exact ih hlt
      · rw [Nat.succ_mul] at hfits
        exact wordAt_setWordAt_self (by rwa [length_foldl_setWordAt]) hword

end Bytes

namespace ViewFormat

variable {f g : ViewFormat} {t : ElemType}

theorem Carries.of_eq (h : f.Carries t) (hwidth : g.byteWidth = f.byteWidth) (hkind : g.kind = f.kind) :
    g.Carries t :=
  ⟨h.1, by rw [hwidth, h.2.1], by rw [hkind]; exact h.2.2⟩

/-- Encoding keeps the number of bytes, whatever the format. -/
theorem length_encode (f : ViewFormat) (texel : Texel) (bytes : Bytes) :
    (f.encode texel bytes).length = bytes.length := by
  have hcomps : ∀ width word, (f.encodeComps width word bytes).length = bytes.length := fun _ _ =>
    Bytes.length_foldl_setWordAt ..
  unfold encode
  split
  · split
    · exact Bytes.length_setWordAt ..
    · exact Bytes.length_setWordAt ..
    · rfl
  · exact hcomps ..
  · exact hcomps ..
  · exact hcomps ..
  · exact hcomps ..
  · rfl

/-- Components that are encoded side by side come back bit by bit, also when more components are
    decoded than were encoded. -/
theorem ofWide_decode_encode (bits : Nat → UInt64) (hf : f.Carries t) (hg : g.Carries t)
    {texel : Texel} {bytes : Bytes} (hfits : f.comps * t.byteSize ≤ bytes.length)
    (hbits : ∀ c < f.comps, (bits c).toNat < 2 ^ t.bits ∧
      texel[c]?.getD 0 = t.toWide f.byteWidth (bits c))
    {c : Nat} (hc : c < f.comps) (hg' : c < g.comps) (h4 : c < 4) :
    t.ofWide g.byteWidth (g.decode (f.encode texel bytes))[c] = bits c := by
  have hword : ∀ c < f.comps, f.toWord (texel[c]?.getD 0) = bits c := fun c hc => by
    rw [(hbits c hc).2, toWord_toWide hf (hbits c hc).1]
  have hlt : ∀ c < f.comps, (f.toWord (texel[c]?.getD 0)).toNat < 2 ^ (8 * t.byteSize) := fun c hc => by
    rw [hword c hc]
    exact Nat.lt_of_lt_of_le (hbits c hc).1 t.two_pow_bits_le
  rw [decode_of_carries hg, encode_of_carries hf, decodeComps, Vector.getElem_ofFn, if_pos hg', encodeComps,
    Bytes.wordAt_foldl_setWordAt hc (Nat.le_trans (Nat.mul_le_mul_right _ hc) hfits) (hlt c hc), hword c hc,
    ofWide_ofWord hg (hbits c hc).1]

end ViewFormat

end Lockstep
