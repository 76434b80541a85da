import Lockstep.Proofs.View.Encode

set_option autoImplicit false

/-! # Encoding again what was decoded

The two directions of a format mirror each other: over the bytes that it was decoded from, an element of a
format that is neither rounded nor clamped encodes to these bytes, integers come back cut or clamped to their
components, and no byte past the components is touched (`ViewFormat.recode`). -/

namespace Lockstep

namespace ViewFormat

/-! ## The packed word -/

/-- A word above the low bits of another. -/
theorem toNat_or_shiftLeft {v w : UInt64} {s n : Nat} (hs : s < 64) (hv : v.toNat < 2 ^ s) (hw : w.toNat < 2 ^ n)
    (hn : s + n ≤ 64) : (v ||| w <<< s.toUInt64).toNat = v.toNat + 2 ^ s * w.toNat := by
  have hword : s.toUInt64.toNat = s := Nat.mod_eq_of_lt (Nat.lt_trans hs (by decide))
  have hlt : w.toNat * 2 ^ s < 2 ^ 64 := calc
    w.toNat * 2 ^ s < 2 ^ n * 2 ^ s := Nat.mul_lt_mul_of_pos_right hw (Nat.two_pow_pos s)
    _ = 2 ^ (s + n) := by rw [Nat.mul_comm, ← Nat.pow_add]
    _ ≤ 2 ^ 64 := Nat.pow_le_pow_right (by decide) hn
  rw [UInt64.toNat_or, UInt64.toNat_shiftLeft, hword, Nat.mod_eq_of_lt hs, Nat.shiftLeft_eq, Nat.mod_eq_of_lt hlt,
    Nat.mul_comm, Nat.or_comm, ← Nat.two_pow_add_eq_or_of_lt hv, Nat.add_comm]

theorem parts_lt {part : Nat → UInt64} (h : ∀ c < 4, (part c).toNat < 2 ^ packedBits c) :
    (part 0).toNat < 2 ^ 10 ∧ (part 1).toNat < 2 ^ 10 ∧ (part 2).toNat < 2 ^ 10 ∧ (part 3).toNat < 2 ^ 2 :=
  ⟨h 0 (by decide), h 1 (by decide), h 2 (by decide), h 3 (by decide)⟩

/-- The four parts of a packed word stand side by side. -/
theorem toNat_packed {part : Nat → UInt64} (h : ∀ c < 4, (part c).toNat < 2 ^ packedBits c) :
    (packed part).toNat =
      (part 0).toNat + 2 ^ 10 * (part 1).toNat + 2 ^ 20 * (part 2).toNat + 2 ^ 30 * (part 3).toNat := by
  obtain ⟨h0, h1, h2, h3⟩ := parts_lt h
  have h01 : (part 0 ||| part 1 <<< 10).toNat = _ := toNat_or_shiftLeft (s := 10) (by decide) h0 h1 (by decide)
  have h02 : (part 0 ||| part 1 <<< 10 ||| part 2 <<< 20).toNat = _ :=
    toNat_or_shiftLeft (s := 20) (by decide) (by omega) h2 (by decide)
  have h03 : (packed part).toNat = _ := toNat_or_shiftLeft (s := 30) (by decide) (by omega) h3 (by decide)
  omega

theorem toNat_packedPart (word : UInt64) {c : Nat} (hc : c < 4) :
    (packedPart word c).toNat = word.toNat / 2 ^ (10 * c) % 2 ^ packedBits c := by
  have hshift : (10 * c).toUInt64.toNat = 10 * c := Nat.mod_eq_of_lt (by omega)
  have hlt : 10 * c < 64 := by omega
  rw [packedPart, toNat_and_mask, UInt64.toNat_shiftRight, hshift, Nat.mod_eq_of_lt hlt, Nat.shiftRight_eq_div_pow]

/-- The parts of a word make up the word. -/
theorem packed_packedPart {word : UInt64} (h : word.toNat < 2 ^ 32) : packed (packedPart word) = word := by
  have hpart : ∀ c < 4, (packedPart word c).toNat < 2 ^ packedBits c := fun c _ => and_mask_lt ..
  refine UInt64.toNat_inj.1 ?_
  rw [toNat_packed hpart, toNat_packedPart word (c := 0) (by decide), toNat_packedPart word (c := 1) (by decide),
    toNat_packedPart word (c := 2) (by decide), toNat_packedPart word (c := 3) (by decide)]
  simp only [packedBits, reduceIte, Nat.reduceEqDiff]
  omega

/-- The parts that are packed are found again. -/
theorem packedPart_packed {part : Nat → UInt64} (h : ∀ c < 4, (part c).toNat < 2 ^ packedBits c) {c : Nat}
    (hc : c < 4) : packedPart (packed part) c = part c := by
  obtain ⟨h0, h1, h2, h3⟩ := parts_lt h
  refine UInt64.toNat_inj.1 ?_
  rw [toNat_packedPart _ hc, toNat_packed h]
  match c, hc with
  | 0, _ | 1, _ | 2, _ | 3, _ =>
      simp only [packedBits, reduceIte, Nat.reduceEqDiff]
      omega

theorem packed_lt {part : Nat → UInt64} (h : ∀ c < 4, (part c).toNat < 2 ^ packedBits c) :
    (packed part).toNat < 2 ^ (8 * 4) := by
  obtain ⟨h0, h1, h2, h3⟩ := parts_lt h
  rw [toNat_packed h]
  omega

/-! ## The bytes of an element -/

/-- Four parts in one word, as integers or normalised. -/
def IsPacked (f : ViewFormat) : Prop := f.byteWidth = 10 ∧ (f.kind = .uInt ∨ f.kind = .uNorm)

instance (f : ViewFormat) : Decidable f.IsPacked := inferInstanceAs (Decidable (_ ∧ _))

/-- The number of components that are encoded. -/
def encodedComps (f : ViewFormat) : Nat := if f.IsPlain then f.comps else if f.IsPacked then 4 else 0

/-- Where the bytes of a component end. -/
def compStop (f : ViewFormat) (c : Nat) : Nat := if f.IsPacked then 4 else (c + 1) * f.byteWidth.toNat

/-- Where the bytes of the encoded components end. -/
def extent (f : ViewFormat) : Nat :=
  if f.IsPlain then f.comps * f.byteWidth.toNat else if f.IsPacked then 4 else 0

variable {f : ViewFormat}

theorem IsPacked.not_isPlain (h : f.IsPacked) : ¬ f.IsPlain := by
  unfold IsPlain
  rw [h.1]
  decide

/-- The parts of the word that a packed element is encoded to. -/
def packedParts (f : ViewFormat) (texel : Texel) (c : Nat) : UInt64 :=
  if f.kind = .uInt then texel[c]?.getD 0 &&& mask (packedBits c)
  else (Normalized.toUnsigned (texel[c]?.getD 0) (packedBits c)).toUInt64

theorem encode_of_isPacked (h : f.IsPacked) (texel : Texel) (bytes : Bytes) :
    f.encode texel bytes = bytes.setWordAt 0 4 (packed (f.packedParts texel)) := by
  unfold encode packedParts
  rw [h.1]
  rcases h.2 with hkind | hkind <;> rw [hkind] <;> rfl

/-- Any other format encodes nothing. -/
theorem encode_of_not (hplain : ¬ f.IsPlain) (hpacked : ¬ f.IsPacked) (texel : Texel) (bytes : Bytes) :
    f.encode texel bytes = bytes := by
  have hwidth : ∀ n : UInt32, f.byteWidth.toNat = n.toNat → f.byteWidth = n := fun n => UInt32.toNat_inj.1
  unfold encode
  split
  · next h10 =>
      split
      · next hkind => exact absurd ⟨hwidth 10 h10, .inl hkind⟩ hpacked
      · next hkind => exact absurd ⟨hwidth 10 h10, .inr hkind⟩ hpacked
      · rfl
  · next h8 => exact absurd (.inr (.inr (.inr (hwidth 8 h8)))) hplain
  · next h4 => exact absurd (.inr (.inr (.inl (hwidth 4 h4)))) hplain
  · next h2 => exact absurd (.inr (.inl (hwidth 2 h2))) hplain
  · next h1 => exact absurd (.inl (hwidth 1 h1)) hplain
  · rfl

/-- The bytes past the encoded components stay. -/
theorem getElem?_encode (f : ViewFormat) (texel : Texel) (bytes : Bytes) {k : Nat} (hk : f.extent ≤ k) :
    (f.encode texel bytes)[k]? = bytes[k]? := by
  unfold extent at hk
  by_cases hplain : f.IsPlain
  · rw [if_pos hplain] at hk
    refine Classical.not_not.1 fun hne => ?_
    obtain ⟨c, hc, -, hlt, -⟩ := exists_of_encode_ne hplain hne
    exact Nat.not_le_of_lt (Nat.lt_of_lt_of_le hlt (Nat.mul_le_mul_right _ hc)) hk
  · rw [if_neg hplain] at hk
    by_cases hpacked : f.IsPacked
    · rw [if_pos hpacked] at hk
      rw [encode_of_isPacked hpacked]
      exact Bytes.getElem?_setWordAt _ _ (.inr (by omega))
    · rw [encode_of_not hplain hpacked]

/-! ## From bytes and back -/

/-- Components that are neither rounded nor clamped are encoded to the bytes that they were decoded from; a
    component that the bytes do not hold is not written. -/
theorem encode_decode (hlossy : ¬ f.IsLossy) (hnorm : ¬ (f.byteWidth = 10 ∧ f.kind = .uNorm)) (bytes : Bytes) :
    f.encode (f.decode bytes) bytes = bytes := by
  by_cases hplain : f.IsPlain
  · refine List.ext_getElem? fun k => Classical.not_not.1 fun hne => ?_
    obtain ⟨c, hc, -, -, hword⟩ := exists_of_encode_ne hplain hne
    have h4 : c < 4 := Nat.lt_of_lt_of_le hc (Nat.min_le_right ..)
    refine hword ?_
    rw [Vector.getElem?_eq_getElem h4, Option.getD_some, getElem_decode hplain hc h4]
    exact toWord_ofWord hplain hlossy (Bytes.wordAt_lt ..)
  · by_cases hpacked : f.IsPacked
    · have hkind : f.kind = .uInt := hpacked.2.resolve_right fun hkind => hnorm ⟨hpacked.1, hkind⟩
      have hparts : ∀ c < 4, f.packedParts (f.decode bytes) c = packedPart (bytes.wordAt 0 4) c := by
        intro c hc
        have hdecode : (f.decode bytes)[c]?.getD 0 = packedPart (bytes.wordAt 0 4) c := by
          unfold decode
          rw [hpacked.1, hkind]
          rw [Vector.getElem?_eq_getElem hc, Option.getD_some]
          exact Vector.getElem_ofFn ..
        rw [packedParts, if_pos hkind, hdecode]
        refine UInt64.toNat_inj.1 ((toNat_and_mask ..).trans (Nat.mod_eq_of_lt ?_))
        exact and_mask_lt ..
      have hpacked' : packed (f.packedParts (f.decode bytes)) = packed (packedPart (bytes.wordAt 0 4)) := by
        simp only [packed, hparts 0 (by decide), hparts 1 (by decide), hparts 2 (by decide), hparts 3 (by decide)]
      rw [encode_of_isPacked hpacked, hpacked', packed_packedPart (Bytes.wordAt_lt ..)]
      exact Bytes.setWordAt_wordAt bytes (by decide)
    · exact encode_of_not hplain hpacked ..

/-! ## From integers and back -/

/-- The components are integers, side by side or packed. -/
def IsInteger (f : ViewFormat) : Prop :=
  f.IsPlain ∧ (f.kind = .uInt ∨ f.kind = .sInt) ∨ f.byteWidth = 10 ∧ f.kind = .uInt

instance (f : ViewFormat) : Decidable f.IsInteger := inferInstanceAs (Decidable (_ ∨ _))

/-- The signed number of the low 32 bits, clamped to the numbers of `n` bits. -/
def clampLow (n : Nat) (wide : UInt64) : Int :=
  max (-2 ^ (n - 1)) (min wide.toUInt32.toInt32.toInt (2 ^ (n - 1) - 1))

/-- What is decoded for an integer that was encoded: it is cut to its component, but in one or two bytes a
    signed one is clamped, and extended to 32 bits. -/
def kept (f : ViewFormat) (c : Nat) (wide : UInt64) : UInt64 :=
  if f.byteWidth = 10 then wide &&& mask (packedBits c)
  else if f.kind = .sInt ∧ f.byteWidth < 4 then
    (Int32.ofInt (clampLow (8 * f.byteWidth.toNat) wide)).toUInt32.toUInt64
  else wide &&& mask (8 * f.byteWidth.toNat)

theorem and_mask_and_mask (w : UInt64) (n : Nat) : w &&& mask n &&& mask n = w &&& mask n := by
  refine UInt64.toNat_inj.1 ?_
  rw [toNat_and_mask, toNat_and_mask, Nat.mod_mod]

/-- The sign extension of a clamped number. -/
theorem signExtend_clampLow {n : Nat} (hn : n = 8 ∨ n = 16) (wide : UInt64) :
    (signExtend ((Int64.ofInt (clampLow n wide)).toUInt64 &&& mask n) n).toUInt64 &&& 0xffffffff =
      (Int32.ofInt (clampLow n wide)).toUInt32.toUInt64 := by
  generalize hv : clampLow n wide = v
  have hrange : -2 ^ (n - 1) ≤ v ∧ v < 2 ^ (n - 1) := by
    unfold clampLow at hv
    rcases hn with rfl | rfl <;> omega
  have hword : ((Int64.ofInt v).toUInt64 &&& mask n).toNat = (v % 2 ^ 64).toNat % 2 ^ n := by
    rw [toNat_and_mask, ← Int64.toNat_toBitVec, Int64.toBitVec_ofInt, BitVec.toNat_ofInt]
    rfl
  have hlow : (Int32.ofInt v).toUInt32.toUInt64.toNat = (v % 2 ^ 32).toNat := by
    rw [UInt32.toNat_toUInt64, ← Int32.toNat_toBitVec, Int32.toBitVec_ofInt, BitVec.toNat_ofInt]
    rfl
  refine UInt64.toNat_inj.1 ?_
  rw [toNat_signExtend_low (by omega) (and_mask_lt ..), hword, hlow]
  rcases hn with rfl | rfl <;> split <;> omega

/-- An integer component is decoded as it is kept. -/
theorem ofWord_toWord_and_mask (hplain : f.IsPlain) (hkind : f.kind = .uInt ∨ f.kind = .sInt) (c : Nat)
    (wide : UInt64) : f.ofWord (f.toWord wide &&& mask (8 * f.byteWidth.toNat)) = f.kept c wide := by
  have h10 : f.byteWidth ≠ 10 := by
    rcases hplain with h | h | h | h <;> rw [h] <;> decide
  unfold ofWord toWord kept
  rw [if_neg h10]
  by_cases hwidth : f.byteWidth < 4
  · rw [if_pos hwidth, if_pos hwidth]
    unfold widen narrow
    rw [Nat.mul_comm f.byteWidth.toNat 8]
    rcases hkind with hkind | hkind
    · simp only [hkind, and_mask_and_mask]
      rfl
    · have hn : 8 * f.byteWidth.toNat = 8 ∨ 8 * f.byteWidth.toNat = 16 := by
        rcases hplain with h | h | h | h <;> rw [h] at hwidth ⊢
        · exact .inl rfl
        · exact .inr rfl
        all_goals exact absurd hwidth (by decide)
      simp only [hkind, and_mask_and_mask, true_and]
      rw [if_pos hwidth]
      exact signExtend_clampLow hn wide
  · rw [if_neg hwidth, if_neg hwidth, if_neg fun h => hwidth h.2]

/-- Integers that are encoded inside the bytes come back as they are kept. -/
theorem decode_encode (h : f.IsInteger) (texel : Texel) {bytes : Bytes} {c : Nat} (h4 : c < 4)
    (hc : c < f.encodedComps) (hfits : f.compStop c ≤ bytes.length) :
    (f.decode (f.encode texel bytes))[c] = f.kept c texel[c] := by
  unfold encodedComps at hc
  unfold compStop at hfits
  rcases h with ⟨hplain, hkind⟩ | ⟨hwidth, hkind⟩
  · have hpacked : ¬ f.IsPacked := fun h => h.not_isPlain hplain
    rw [if_pos hplain] at hc
    rw [if_neg hpacked] at hfits
    -- what is written is cut to the component beforehand, so that it can be read as a word
    have hcut : f.encode texel bytes = f.encodeComps f.byteWidth.toNat
        (fun c => f.toWord (texel[c]?.getD 0) &&& mask (8 * f.byteWidth.toNat)) bytes := by
      rw [encode_of_isPlain hplain]
      simp only [encodeComps, Bytes.setWordAt_and_mask]
    rw [getElem_decode hplain hc h4, hcut, encodeComps,
      Bytes.wordAt_foldl_setWordAt hc hfits (and_mask_lt ..), Vector.getElem?_eq_getElem h4, Option.getD_some]
    exact ofWord_toWord_and_mask hplain hkind c texel[c]
  · have hpacked : f.IsPacked := ⟨hwidth, .inl hkind⟩
    rw [if_pos hpacked] at hfits
    have hparts : ∀ c < 4, (f.packedParts texel c).toNat < 2 ^ packedBits c := by
      intro c _
      rw [packedParts, if_pos hkind]
      exact and_mask_lt ..
    have hdecode : ∀ bytes : Bytes, (f.decode bytes)[c] = packedPart (bytes.wordAt 0 4) c := by
      intro bytes
      unfold decode
      rw [hwidth, hkind]
      exact Vector.getElem_ofFn ..
    rw [hdecode, encode_of_isPacked hpacked, Bytes.wordAt_setWordAt_self (by omega) (packed_lt hparts),
      packedPart_packed hparts h4, packedParts, if_pos hkind, Vector.getElem?_eq_getElem h4, Option.getD_some, kept,
      if_pos hwidth]

/-- Over the bytes that it was decoded from, an element encodes to these bytes, unless its components are half
    floats or normalised in few bits; integers that are encoded inside the bytes are decoded as what their
    components keep of them; and encoding keeps the number of bytes, and each byte past its components. -/
theorem recode (f : ViewFormat) (bytes : Bytes) :
    (¬ f.IsLossy → ¬ (f.byteWidth = 10 ∧ f.kind = .uNorm) → f.encode (f.decode bytes) bytes = bytes) ∧
    (f.IsInteger → ∀ (texel : Texel) (c : Nat) (h4 : c < 4), c < f.encodedComps → f.compStop c ≤ bytes.length →
      (f.decode (f.encode texel bytes))[c] = f.kept c texel[c]) ∧
    ∀ texel : Texel, (f.encode texel bytes).length = bytes.length ∧
      ∀ k ≥ f.extent, (f.encode texel bytes)[k]? = bytes[k]? :=
  ⟨fun hlossy hnorm => encode_decode hlossy hnorm bytes,
    fun h texel _ h4 hc hfits => decode_encode h texel h4 hc hfits,
    fun texel => ⟨length_encode f texel bytes, fun _ hk => getElem?_encode f texel bytes hk⟩⟩

/-- Pairs of 16-bit numbers over bytes that hold one and a half of them: the bytes come back, and -40000 is
    stored as -32768. -/
theorem recode_shorts :
    let f := new 2 2 .sInt
    let bytes : Bytes := [0xff, 0x7f, 0x12]
    f.encode (f.decode bytes) bytes = bytes ∧
      (f.decode (f.encode #v[0xffff63c0, 5, 0, 0] bytes))[0]? = some (f.kept 0 0xffff63c0) ∧
      f.kept 0 0xffff63c0 = 0xffff8000 ∧ (f.encode #v[0xffff63c0, 5, 0, 0] bytes)[4]? = bytes[4]? := by
  intro f bytes
  obtain ⟨hback, hkept, hencode⟩ := recode f bytes
  have hshort := hkept (by decide) #v[0xffff63c0, 5, 0, 0] 0 (by decide) (by decide) (by decide)
  exact ⟨hback (by decide) (by decide), (Vector.getElem?_eq_getElem _).trans (congrArg some hshort), by decide +kernel,
    (hencode _).2 4 (by decide)⟩

end ViewFormat

end Lockstep
