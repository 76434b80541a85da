import Lockstep.Proofs.View.Suits

set_option autoImplicit false

/-! # Storing and loading an element

What is stored through a view that keeps every bit comes back when it is loaded
(`Snapshot.load?_store?`). -/

namespace Lockstep

namespace Snapshot

variable {s : Snapshot} {structStride : Option UInt32} {t : ElemType} {index : UInt32} {offset : UInt64}
  {k : Nat}

theorem Inside.of_eq {s' : Snapshot} (h : s.Inside structStride t index offset k) (hinfo : s'.info = s.info)
    (hlength : s'.data.length = s.data.length) : s'.Inside structStride t index offset k where
  view := hinfo ▸ h.view
  data := hinfo ▸ hlength ▸ h.data
  stop_lt := hinfo ▸ h.stop_lt
  length_lt := hlength ▸ h.length_lt

/-- The access of an element type to a buffer element. -/
def bufferAccess (structStride : Option UInt32) (t : ElemType) (columns : Nat) (index : UInt32)
    (offset : UInt64) : ViewAccess :=
  { structStride, elem := t, columns := columns.toUInt32, address := .buffer index offset }

/-- A store to an element that is found encodes its values over it. -/
theorem exists_texel_of_store? {a : ViewAccess} {e : Element} (he : s.element? a = some e)
    (values : Vector (Option Variable) 4) :
    ∃ texel : Texel, s.store? a values =
        some (s.encodeAt e.offset { e.format with numComps := min a.columns e.format.numComps } texel) ∧
      ∀ c (hc : c < 4) (v : Variable), values[c] = some v →
        texel[c] = v.elem.toWide e.format.byteWidth (v.get 0) := by
  rw [store?, he]
  refine ⟨_, rfl, fun c hc v hv => ?_⟩
  rw [Vector.getElem_ofFn, Fin.getElem_fin]
  exact hv ▸ rfl

theorem length_encodeAt (s : Snapshot) (start : Nat) (f : ViewFormat) (texel : Texel) :
    (s.encodeAt start f texel).data.length = s.data.length := by
  rw [encodeAt, List.length_append, ViewFormat.length_encode, ← List.length_append, List.take_append_drop]

theorem drop_encodeAt (f : ViewFormat) (texel : Texel) {start : Nat} (h : start ≤ s.data.length) :
    (s.encodeAt start f texel).data.drop start = f.encode texel (s.data.drop start) :=
  List.drop_left' (List.length_take_of_le h)

/-- A component inside the view is loaded as the element decodes it. -/
theorem load?_of_lt {a : ViewAccess} {e : Element} (he : s.element? a = some e) :
    ∃ comps, s.load? a = some comps ∧ ∀ c (hc : c < 4), c < e.format.numComps.toNat →
      comps[c] = a.elem.ofWide e.format.byteWidth (s.decodeAt e)[c] := by
  rw [load?, he]
  refine ⟨_, rfl, fun c hc hlt => ?_⟩
  have hcut : isCut e c = false :=
    Bool.and_eq_false_imp.2 fun _ => decide_eq_false (Nat.not_le_of_lt hlt)
  rw [Vector.getElem_ofFn, hcut]
  rfl

/-- What is stored is there when it is loaded, bit by bit. -/
theorem load?_store? (hsuits : s.info.Suits structStride t k)
    (h : s.Inside structStride t index offset k) (hk : 0 < k) {m : Nat} (hm : k ≤ m) (hm4 : m ≤ 4)
    {values : Vector (Option Variable) 4} {v : Nat → Variable}
    (hvalues : ∀ c (hc : c < 4), values[c] = if c < k then some (v c) else none)
    (hv : ∀ c < k, (v c).elem = t ∧ ((v c).get 0).toNat < 2 ^ t.bits) :
    ∃ stored comps, s.store? (bufferAccess structStride t k index offset) values = some stored ∧
      stored.isTexture = s.isTexture ∧
      stored.load? (bufferAccess structStride t m index offset) = some comps ∧
      ∀ c (hc : c < 4), c < k → comps[c] = (v c).get 0 := by
  have hcolumns : ∀ n ≤ 4, n.toUInt32.toNat = n := fun n hn => Nat.mod_eq_of_lt (by omega)
  obtain ⟨e, he, heOffset, hcarries, hcomps⟩ := locate?_of_inside hsuits h hk
    (show k ≤ k.toUInt32.toNat from Nat.le_of_eq (hcolumns k (by omega)).symm)
  obtain ⟨texel, hstore, htexel⟩ := exists_texel_of_store? (a := bufferAccess structStride t k index offset)
    he values
  have hk' : (bufferAccess structStride t k index offset).columns.toNat = k := hcolumns k (by omega)
  generalize (bufferAccess structStride t k index offset).columns = n at hstore hk'
  generalize hf : { e.format with numComps := min n e.format.numComps } = f at hstore
  have hfCarries : f.Carries t := hf ▸ hcarries.of_eq rfl rfl
  have hfComps : f.comps = k := by
    rw [ViewFormat.comps, ← hf, UInt32.toNat_min, hk']
    omega
  have hdata := h.data
  -- the store leaves the view and the size of the data, so that the load finds the same element
  obtain ⟨e', he', heOffset', hcarries', hcomps'⟩ := locate?_of_inside (s := s.encodeAt e.offset f texel)
    hsuits (h.of_eq rfl (length_encodeAt ..)) hk
    (show k ≤ m.toUInt32.toNat by rw [hcolumns m hm4]; exact hm)
  obtain ⟨comps, hload, hloaded⟩ := load?_of_lt (a := bufferAccess structStride t m index offset) he'
  refine ⟨_, comps, hstore, rfl, hload, fun c hc hck => ?_⟩
  have hbits : ∀ c < f.comps, ((v c).get 0).toNat < 2 ^ t.bits ∧
      texel[c]?.getD 0 = t.toWide f.byteWidth ((v c).get 0) := fun c hc => by
    rw [hfComps] at hc
    have hc4 : c < 4 := by omega
    refine ⟨(hv c hc).2, ?_⟩
    rw [Vector.getElem?_eq_getElem hc4, ← (hv c hc).1, ← hf]
    exact htexel c hc4 (v c) ((hvalues c hc4).trans (if_pos hc))
  rw [hloaded c hc (by omega), decodeAt, show e'.offset = e.offset from heOffset'.trans heOffset.symm,
    drop_encodeAt f texel (by omega)]
  refine ViewFormat.ofWide_decode_encode (fun c => (v c).get 0) hfCarries hcarries' ?_ hbits ?_ ?_ hc
  · rw [hfComps, List.length_drop]
    omega
  · rwa [hfComps]
  · rw [ViewFormat.comps]
    omega

end Snapshot

end Lockstep
