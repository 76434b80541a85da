import Lockstep.Proofs.View.Components
import Lockstep.Proofs.View.Misses
import Lockstep.Proofs.View.RoundTrip

set_option autoImplicit false

/-! # What a snapshot shows, and what accesses leave of it

Where the element of an access lies, what a load shows of it, and what a store and an atomic update leave of the
snapshot, each as a relation in exact numbers (`Snapshot.Locates`, `Snapshot.Shows`, `Snapshot.Stores`,
`Snapshot.Updates`). Accesses through a view are instances of these (`Snapshot.shows_load?`,
`Snapshot.stores_store?`, `Snapshot.updates_update?`). -/

namespace Lockstep

namespace Snapshot

variable {s : Snapshot} {a : ViewAccess} {e : Element}

/-! ## Elements -/

/-- The element that an access names starts at a byte inside the data, and has the components of its format that are
    left in the view and in the data. Of a texture all components are left. Positions beyond the words are wrapped. -/
inductive Locates (s : Snapshot) (a : ViewAccess) : Element → Prop
  | buffer {f : ViewFormat} {index : UInt32} {offset : UInt64} (ha : a.address = .buffer index offset)
      (hf : s.formatAt? a = some f) (hstride : f.stride ≠ 0)
      (hview : s.info.Has (s.byByte a) f.byteWidth.toNat index)
      (hdata : s.startOf a f index offset % 2 ^ 64 < s.data.length % 2 ^ 64) :
      Locates s a { offset := s.startOf a f index offset % 2 ^ 64
                    format := s.clipped f (s.startOf a f index offset) (s.stopOf a f), requested := f.numComps }
  | texel {f : ViewFormat} {x y z : UInt32} (ha : a.address = .texel x y z) (hf : s.formatAt? a = some f)
      (hstride : f.stride ≠ 0) (hdata : s.texelStart f x y z % 2 ^ 64 < s.data.length % 2 ^ 64) :
      Locates s a { offset := s.texelStart f x y z % 2 ^ 64, format := f, requested := f.numComps }

/-- The address fits the resource: only textures have coordinates. -/
def Suited (s : Snapshot) (a : ViewAccess) : Prop :=
  ∀ {x y z : UInt32}, a.address = .texel x y z → s.isTexture

theorem toNat_position (s : Snapshot) (f : ViewFormat) (x y z : UInt32) :
    (x.toUInt64 * f.stride.toUInt64 + y.toUInt64 * s.rowPitch.toUInt64 + z.toUInt64 * s.depthPitch.toUInt64).toNat =
      s.texelStart f x y z % 2 ^ 64 := by
  simp only [UInt64.toNat_add, UInt64.toNat_mul, UInt32.toNat_toUInt64, Nat.mod_add_mod, Nat.add_mod_mod, texelStart]

theorem Locates.offset_lt (h : s.Locates a e) : e.offset < s.data.length := by
  have hmod := Nat.mod_le s.data.length (2 ^ 64)
  cases h with
  | buffer _ _ _ _ hdata => exact Nat.lt_of_lt_of_le hdata hmod
  | texel _ _ _ hdata => exact Nat.lt_of_lt_of_le hdata hmod

/-- An element that is found is the one that the access names. -/
theorem Locates.of_element? (ha : s.Suited a) (he : s.element? a = some e) : s.Locates a e := by
  cases haddress : a.address with
  | buffer index offset =>
      rw [element?_buffer haddress] at he
      split at he
      · cases he
      · obtain ⟨f, hf, he⟩ := Option.bind_eq_some_iff.1 he
        split at he
        · cases he
        · next hstride =>
            rw [bufferElement?_eq rfl rfl] at he
            split at he
            · next hin =>
                cases he
                exact .buffer haddress hf hstride hin.1 hin.2
            · cases he
  | texel x y z =>
      rw [element?_texel haddress (ha haddress)] at he
      split at he
      · cases he
      · obtain ⟨f, hf, he⟩ := Option.bind_eq_some_iff.1 he
        split at he
        · cases he
        · next hstride =>
            dsimp only at he
            split at he
            · cases he
            · next hin =>
                cases he
                rw [toNat_position]
                refine .texel haddress hf hstride ?_
                rw [← toNat_position]
                exact UInt64.lt_iff_toNat_lt.1 (UInt64.not_le.1 hin)

/-- An access that finds nothing names no element. -/
theorem not_locates_of_element? (ha : s.Suited a) (hnone : s.element? a = none) : ¬ s.Locates a e := by
  intro h
  have hdata : ¬ s.data.isEmpty := fun hempty => by
    have hlt := h.offset_lt
    rw [List.isEmpty_iff.1 hempty] at hlt
    cases hlt
  cases h with
  | buffer haddress hf hstride hview hlt =>
      rw [element?_buffer haddress, if_neg hdata, hf, Option.bind_some, if_neg hstride, bufferElement?_eq rfl rfl,
        if_pos ⟨hview, hlt⟩] at hnone
      cases hnone
  | texel haddress hf hstride hlt =>
      rw [element?_texel haddress (ha haddress), if_neg hdata, hf, Option.bind_some, if_neg hstride] at hnone
      dsimp only at hnone
      rw [if_neg] at hnone
      · cases hnone
      · rw [ge_iff_le, UInt64.not_le, UInt64.lt_iff_toNat_lt, toNat_position]
        exact hlt

/-! ## Loads -/

/-- What a load shows in a component: nothing where there is no element, or where the component was asked for and is not
    left of the element, and otherwise what the bytes say. -/
inductive Shows (s : Snapshot) (a : ViewAccess) (c : Nat) : UInt64 → Prop
  | nothing (h : ∀ e, ¬ s.Locates a e) : Shows s a c 0
  | cut {e : Element} (he : s.Locates a e) (hcut : e.format.numComps < e.requested)
      (hc : e.format.numComps.toNat ≤ c) : Shows s a c 0
  | component {e : Element} (he : s.Locates a e) (hc : e.requested ≤ e.format.numComps ∨ c < e.format.numComps.toNat) :
      Shows s a c (a.elem.shown e.format.byteWidth (e.format.wideAt s.data e.offset c))

/-- What is decoded of an element that was found. -/
theorem Locates.decodeAt (h : s.Locates a e) {c : Nat} (hc : c < 4) :
    (s.decodeAt e)[c] = e.format.wideAt s.data e.offset c :=
  e.format.getElem_decode_drop (Nat.le_of_lt h.offset_lt) hc

/-- A load gives the components that it shows. -/
theorem shows_load? (ha : s.Suited a) {c : Nat} (hc : c < 4) :
    s.Shows a c (((s.load? a).bind fun comps => comps[c]?).getD 0) := by
  unfold load?
  cases he : s.element? a with
  | none => exact .nothing fun e => not_locates_of_element? ha he
  | some e =>
      have hfound := Locates.of_element? ha he
      simp only [Option.map_some, Option.bind_some, Vector.getElem?_ofFn, hc, dite_true, Option.getD_some,
        ElemType.ofWide_eq, Fin.getElem_fin, hfound.decodeAt hc]
      cases hcut : isCut e c with
      | true =>
          rw [if_pos rfl, ElemType.shown_zero]
          obtain ⟨hlt, hle⟩ := Bool.and_eq_true_iff.1 hcut
          exact .cut hfound (of_decide_eq_true hlt) (of_decide_eq_true hle)
      | false =>
          rw [if_neg Bool.false_ne_true]
          refine .component hfound ?_
          rcases Bool.and_eq_false_iff.1 hcut with hlt | hle
          · exact .inl (UInt32.not_lt.1 (of_decide_eq_false hlt))
          · exact .inr (Nat.lt_of_not_le (of_decide_eq_false hle))

/-! ## Stores -/

/-- What a store leaves: the same snapshot where there is no element, and otherwise one in which the components of the
    element are written up to the last that was given a value. A component that is given no value is written as it
    is. -/
inductive Stores (s : Snapshot) (a : ViewAccess) (values : Vector (Option Variable) 4) : Snapshot → Prop
  | nothing (h : ∀ e, ¬ s.Locates a e) : Stores s a values s
  | element {e : Element} {f : ViewFormat} {wide : Nat → UInt64} {left : Bytes} (he : s.Locates a e)
      (hf : f = { e.format with numComps := min a.columns e.format.numComps })
      (hgiven : ∀ c (hc : c < 4) v, values[c] = some v → wide c = v.elem.carried e.format.byteWidth (v.get 0))
      (hkept : ∀ c (hc : c < 4), values[c] = none → wide c = e.format.wideAt s.data e.offset c)
      (hleft : f.Writes wide e.offset s.data left) : Stores s a values { s with data := left }

/-- A store leaves what it says. -/
theorem stores_store? (ha : s.Suited a) (values : Vector (Option Variable) 4) :
    s.Stores a values ((s.store? a values).getD s) := by
  unfold store?
  cases he : s.element? a with
  | none => exact .nothing fun e => not_locates_of_element? ha he
  | some e =>
      have hfound := Locates.of_element? ha he
      refine .element hfound rfl (fun c hc v hv => ?_) (fun c hc hnone => ?_)
        (ViewFormat.writes_encode _ _ (Nat.le_of_lt hfound.offset_lt))
      · rw [Vector.getElem?_eq_getElem hc, Option.getD_some, Vector.getElem_ofFn, Fin.getElem_fin, ← ElemType.toWide_eq]
        exact hv ▸ rfl
      · rw [Vector.getElem?_eq_getElem hc, Option.getD_some, Vector.getElem_ofFn, Fin.getElem_fin, ← hfound.decodeAt hc]
        exact hnone ▸ rfl

/-! ## Atomic updates -/

/-- What an atomic update gives, and what it leaves: zero and the same snapshot where there is no element, and otherwise
    what was shown in the first component, in whose place there is what it is changed to. The component is written also
    where it is not left of the element. -/
inductive Updates (s : Snapshot) (a : ViewAccess) (Changes : UInt64 → UInt64 → Prop) : UInt64 → Snapshot → Prop
  | nothing (h : ∀ e, ¬ s.Locates a e) : Updates s a Changes 0 s
  | element {e : Element} {f : ViewFormat} {wide : Nat → UInt64} {left : Bytes} {old new : UInt64} (he : s.Locates a e)
      (hold : old = a.elem.shown e.format.byteWidth (e.format.wideAt s.data e.offset 0)) (hnew : Changes old new)
      (hf : f = { e.format with numComps := 1 }) (hfirst : wide 0 = a.elem.carried e.format.byteWidth new)
      (hkept : ∀ c < 4, c ≠ 0 → wide c = e.format.wideAt s.data e.offset c)
      (hleft : f.Writes wide e.offset s.data left) : Updates s a Changes old { s with data := left }

/-- An update gives and leaves what it says. -/
theorem updates_update? (ha : s.Suited a) {Changes : UInt64 → UInt64 → Prop} {change : UInt64 → UInt64}
    (hchange : ∀ old, Changes old (change old)) :
    s.Updates a Changes ((s.update? a change).getD (0, s)).1 ((s.update? a change).getD (0, s)).2 := by
  unfold update?
  cases he : s.element? a with
  | none => exact .nothing fun e => not_locates_of_element? ha he
  | some e =>
      have hfound := Locates.of_element? ha he
      refine .element hfound ?_ (hchange _) rfl ?_ (fun c hc hne => ?_)
        (ViewFormat.writes_encode _ _ (Nat.le_of_lt hfound.offset_lt))
      · rw [← ElemType.ofWide_eq, ← hfound.decodeAt (by decide)]
        rfl
      · rw [← ElemType.toWide_eq, Vector.getElem?_set_self]
        rfl
      · rw [Vector.getElem?_set_ne _ (Ne.symm hne), Vector.getElem?_eq_getElem hc, Option.getD_some,
          ← hfound.decodeAt hc]

end Snapshot

end Lockstep
