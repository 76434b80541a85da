import Lockstep.Proofs.View.Format

set_option autoImplicit false

/-! # Which bytes an element overwrites

A byte that changes when an element is encoded lies in a component whose word changes
(`ViewFormat.exists_of_encode_ne`). Where the format is not lossy, the word of a component that was decoded is
the one that it was decoded from (`ViewFormat.toWord_ofWord`), so that such a component stays. -/

namespace Lockstep

/-! ## Words in a string of bytes -/

namespace Bytes

/-- The word of some bytes has these bytes. -/
theorem ofWord_toWord {bs : Bytes} (h : bs.length ≤ 8) : ofWord (toWord bs) bs.length = bs := by
  induction bs with
  | nil => rfl
  | cons b bs ih =>
      rw [List.length_cons] at h
      have hb : b.toNat < 256 := b.toNat_lt
      have hrest : (toWord bs).toNat < 2 ^ 56 :=
        Nat.lt_of_lt_of_le (toWord_lt bs) (Nat.pow_le_pow_right (by decide) (by omega))
      have hsum : (toWord (b :: bs)).toNat = (toWord bs).toNat * 256 + b.toNat := by
        rw [toNat_toWord_cons, Nat.mod_eq_of_lt (by omega), Nat.or_comm, Nat.mul_comm,
          ← Nat.two_pow_add_eq_or_of_lt (i := 8) hb]
      have hbyte : (toWord (b :: bs)).toUInt8 = b := by
        refine UInt8.toNat_inj.1 ?_
        rw [UInt64.toNat_toUInt8, hsum]
        omega
      have hshift : toWord (b :: bs) >>> 8 = toWord bs := by
        refine UInt64.toNat_inj.1 ?_
        rw [UInt64.toNat_shiftRight, Nat.shiftRight_eq_div_pow, hsum]
        show (_ : Nat) / 2 ^ 8 = _
        omega
      rw [List.length_cons, ofWord, hbyte, hshift, ih (by omega)]

/-- The bytes of a word depend on as many of its low bits. -/
theorem ofWord_congr {v w : UInt64} {n : Nat} (h : v.toNat % 2 ^ (8 * n) = w.toNat % 2 ^ (8 * n)) :
    ofWord v n = ofWord w n := by
  induction n generalizing v w with
  | zero => rfl
  | succ n ih =>
      have hpow : 2 ^ (8 * (n + 1)) = 2 ^ 8 * 2 ^ (8 * n) := by
        rw [← Nat.pow_add, Nat.mul_succ, Nat.add_comm]
      rw [hpow] at h
      have hbyte : v.toUInt8 = w.toUInt8 := by
        refine UInt8.toNat_inj.1 ?_
        rw [UInt64.toNat_toUInt8, UInt64.toNat_toUInt8, ← Nat.mod_mul_right_mod, h, Nat.mod_mul_right_mod]
      have hshift : ∀ x : UInt64, (x >>> 8).toNat % 2 ^ (8 * n) = x.toNat % (2 ^ 8 * 2 ^ (8 * n)) / 2 ^ 8 := by
        intro x
        rw [UInt64.toNat_shiftRight, Nat.shiftRight_eq_div_pow, Nat.mod_mul_right_div_self]
        rfl
      have hrest : (v >>> 8).toNat % 2 ^ (8 * n) = (w >>> 8).toNat % 2 ^ (8 * n) := by
        rw [hshift v, h, hshift w]
      rw [ofWord, ofWord, hbyte, ih hrest]

theorem setWordAt_congr (bs : Bytes) (start : Nat) {width : Nat} {v w : UInt64}
    (h : v.toNat % 2 ^ (8 * width) = w.toNat % 2 ^ (8 * width)) :
    bs.setWordAt start width v = bs.setWordAt start width w := by
  rw [setWordAt, setWordAt, ofWord_congr h]

/-- The bits of a word past the width that is written do not count. -/
theorem setWordAt_and_mask (bs : Bytes) (start width : Nat) (w : UInt64) :
    bs.setWordAt start width (w &&& mask (8 * width)) = bs.setWordAt start width w :=
  setWordAt_congr bs start (by rw [toNat_and_mask, Nat.mod_mod])

/-- To write the word that is there changes nothing. -/
theorem setWordAt_wordAt (bs : Bytes) {start width : Nat} (h8 : width ≤ 8) :
    bs.setWordAt start width (bs.wordAt start width) = bs := by
  by_cases h : start + width ≤ bs.length
  · have hlength : ((bs.drop start).take width).length = width := by
      rw [List.length_take, List.length_drop]
      omega
    have hword := ofWord_toWord (hlength ▸ h8)
    rw [hlength] at hword
    rw [setWordAt_eq h, wordAt_eq, if_pos h, hword, List.append_assoc, ← List.drop_drop,
      List.take_append_drop, List.take_append_drop]
  · rw [setWordAt, splice?, length_ofWord, if_neg h]
    rfl

/-- A word stays when words are written side by side in front of it. -/
theorem wordAt_foldl_setWordAt_of_le (bs : Bytes) (word : Nat → UInt64) {n start width : Nat} (h : n * width ≤ start) :
    wordAt ((List.range n).foldl (fun bs c => bs.setWordAt (c * width) width (word c)) bs) start width =
      bs.wordAt start width := by
  induction n with
  | zero => rfl
  | succ n ih =>
      rw [Nat.succ_mul] at h
      rw [List.range_succ, List.foldl_append, List.foldl_cons, List.foldl_nil, wordAt_setWordAt _ _ (.inr h),
        ih (by omega)]

/-- A byte that changes when words are written side by side lies in one that changes. -/
theorem exists_of_foldl_setWordAt_ne {width : Nat} (h8 : width ≤ 8) {word : Nat → UInt64} {n : Nat} {bs : Bytes}
    {k : Nat}
    (h : ((List.range n).foldl (fun bs c => bs.setWordAt (c * width) width (word c)) bs)[k]? ≠ bs[k]?) :
    ∃ c < n, c * width ≤ k ∧ k < (c + 1) * width ∧ word c ≠ bs.wordAt (c * width) width := by
  induction n with
  | zero => exact absurd rfl h
  | succ n ih =>
      rw [List.range_succ, List.foldl_append, List.foldl_cons, List.foldl_nil] at h
      by_cases hlast : n * width ≤ k ∧ k < (n + 1) * width ∧ word n ≠ bs.wordAt (n * width) width
      · exact ⟨n, Nat.lt_succ_self n, hlast⟩
      · -- the last word leaves the byte, which has changed before
        have hkept : ∀ before : Bytes, before.wordAt (n * width) width = bs.wordAt (n * width) width →
            (before.setWordAt (n * width) width (word n))[k]? = before[k]? := by
          intro before hbefore
          by_cases hword : word n = bs.wordAt (n * width) width
          · rw [hword, ← hbefore, setWordAt_wordAt before h8]
          · refine getElem?_setWordAt _ _ ?_
            rw [← Nat.succ_mul]
            rcases Nat.lt_or_ge k (n * width) with hlt | hge
            · exact .inl hlt
            · exact .inr (Nat.le_of_not_lt fun hlt => hlast ⟨hge, hlt, hword⟩)
        rw [hkept _ (wordAt_foldl_setWordAt_of_le bs word (Nat.le_refl _))] at h
        obtain ⟨c, hc, hin⟩ := ih h
        exact ⟨c, Nat.lt_succ_of_lt hc, hin⟩

end Bytes

/-! ## Components that lie side by side -/

namespace ViewFormat

/-- The components lie side by side, in one, two, four or eight bytes each. -/
def IsPlain (f : ViewFormat) : Prop :=
  f.byteWidth = 1 ∨ f.byteWidth = 2 ∨ f.byteWidth = 4 ∨ f.byteWidth = 8

/-- The wide form of a component does not always lead back to its bytes: half floats and narrow normalised
    components are rounded. -/
def IsLossy (f : ViewFormat) : Prop :=
  f.byteWidth = 2 ∧ f.kind = .float ∨ f.byteWidth < 4 ∧ (f.kind = .uNorm ∨ f.kind = .sNorm)

instance (f : ViewFormat) : Decidable f.IsPlain := inferInstanceAs (Decidable (_ ∨ _))

instance (f : ViewFormat) : Decidable f.IsLossy := inferInstanceAs (Decidable (_ ∨ _))

variable {f : ViewFormat}

theorem IsPlain.width_bounds (h : f.IsPlain) : 0 < f.byteWidth.toNat ∧ f.byteWidth.toNat ≤ 8 := by
  rcases h with h | h | h | h <;> rw [h] <;> decide

theorem encode_of_isPlain (h : f.IsPlain) (texel : Texel) (bytes : Bytes) : f.encode texel bytes =
    f.encodeComps f.byteWidth.toNat (fun c => f.toWord (texel[c]?.getD 0)) bytes := by
  unfold encode toWord
  rcases h with h | h | h | h <;> rw [h] <;> rfl

theorem decode_of_isPlain (h : f.IsPlain) (bytes : Bytes) : f.decode bytes =
    f.decodeComps fun c => f.ofWord (bytes.wordAt (c * f.byteWidth.toNat) f.byteWidth.toNat) := by
  unfold decode ofWord
  rcases h with h | h | h | h <;> rw [h]
  · simp only [show UInt32.toNat 1 = 1 from rfl, Nat.mul_one]
    rfl
  all_goals rfl

theorem getElem_decode (h : f.IsPlain) {bytes : Bytes} {c : Nat} (hc : c < f.comps) (h4 : c < 4) :
    (f.decode bytes)[c] = f.ofWord (bytes.wordAt (c * f.byteWidth.toNat) f.byteWidth.toNat) := by
  rw [decode_of_isPlain h, decodeComps, Vector.getElem_ofFn, if_pos hc]

/-- A byte that changes lies in a component that gets another word. -/
theorem exists_of_encode_ne (h : f.IsPlain) {texel : Texel} {bytes : Bytes} {k : Nat}
    (hne : (f.encode texel bytes)[k]? ≠ bytes[k]?) :
    ∃ c < f.comps, c * f.byteWidth.toNat ≤ k ∧ k < (c + 1) * f.byteWidth.toNat ∧
      f.toWord (texel[c]?.getD 0) ≠ bytes.wordAt (c * f.byteWidth.toNat) f.byteWidth.toNat := by
  rw [encode_of_isPlain h] at hne
  exact Bytes.exists_of_foldl_setWordAt_ne h.width_bounds.2 hne

/-- A component that is decoded is encoded to the word that it was. -/
theorem toWord_ofWord (h : f.IsPlain) (hlossy : ¬ f.IsLossy) {word : UInt64}
    (hword : word.toNat < 2 ^ (8 * f.byteWidth.toNat)) : f.toWord (f.ofWord word) = word := by
  have hmask : word &&& mask (f.byteWidth.toNat * 8) = word := by
    refine UInt64.toNat_inj.1 ((toNat_and_mask ..).trans (Nat.mod_eq_of_lt ?_))
    rwa [Nat.mul_comm]
  unfold toWord ofWord
  by_cases hwidth : f.byteWidth < 4
  · rw [if_pos hwidth, if_pos hwidth]
    unfold IsLossy at hlossy
    unfold narrow widen
    cases hkind : f.kind with
    | typeless | uInt => exact hmask
    | float =>
        have hhalf : f.byteWidth ≠ 2 := fun h => hlossy (.inl ⟨h, hkind⟩)
        simp only [if_neg hhalf]
        exact hmask
    | sInt =>
        have hcases : f.byteWidth.toNat * 8 = 8 ∨ f.byteWidth.toNat * 8 = 16 := by
          rcases h with h | h | h | h <;> rw [h] at hwidth ⊢
          · exact .inl rfl
          · exact .inr rfl
          all_goals exact absurd hwidth (by decide)
        exact clamp_signExtend_low hcases (by rwa [Nat.mul_comm])
    | uNorm => exact absurd (.inr ⟨hwidth, .inl hkind⟩) hlossy
    | sNorm => exact absurd (.inr ⟨hwidth, .inr hkind⟩) hlossy
  · rw [if_neg hwidth, if_neg hwidth]

end ViewFormat

end Lockstep
