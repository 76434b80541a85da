import Lockstep.Proofs.View.Bounds
import Lockstep.Proofs.View.Encode
import Lockstep.Proofs.View.RoundTrip

set_option autoImplicit false

/-! # Accesses stay inside the view

A store to a buffer element changes bytes of the view's window only, and of no component that is given no
value (`Snapshot.store?_changedIn`); a load depends on no byte outside of the window
(`Snapshot.load?_of_changedIn`). -/

namespace Lockstep

namespace Bytes

/-- A word depends on its own bytes only. -/
theorem wordAt_congr {bs bs' : Bytes} {start width : Nat} (hlength : bs'.length = bs.length)
    (h : ∀ k, start ≤ k → k < start + width → bs'[k]? = bs[k]?) :
    bs'.wordAt start width = bs.wordAt start width := by
  have hslice : (bs'.drop start).take width = (bs.drop start).take width := by
    refine List.ext_getElem? fun k => ?_
    rw [List.getElem?_take, List.getElem?_take, List.getElem?_drop, List.getElem?_drop]
    split
    · exact h _ (by omega) (by omega)
    · rfl
  rw [wordAt_eq, wordAt_eq, hlength, hslice]

end Bytes

namespace ViewFormat

theorem decode_congr {f : ViewFormat} (h : f.IsPlain) {bytes bytes' : Bytes}
    (hwords : ∀ c < f.comps, bytes'.wordAt (c * f.byteWidth.toNat) f.byteWidth.toNat =
      bytes.wordAt (c * f.byteWidth.toNat) f.byteWidth.toNat) : f.decode bytes' = f.decode bytes := by
  rw [decode_of_isPlain h, decode_of_isPlain h]
  refine Vector.ext fun c hc => ?_
  rw [decodeComps, decodeComps, Vector.getElem_ofFn, Vector.getElem_ofFn]
  by_cases hcomp : c < f.comps
  · rw [if_pos hcomp, if_pos hcomp, hwords c hcomp]
  · rw [if_neg hcomp, if_neg hcomp]

end ViewFormat

namespace Snapshot

/-- Nothing of a snapshot changes but some of its bytes. -/
structure ChangedIn (P : Nat → Prop) (s s' : Snapshot) : Prop where
  frame : s' = { s with data := s'.data }
  length : s'.data.length = s.data.length
  bytes : ∀ {k}, s'.data[k]? ≠ s.data[k]? → P k

theorem ChangedIn.refl {P : Nat → Prop} (s : Snapshot) : s.ChangedIn P s := ⟨rfl, rfl, fun h => absurd rfl h⟩

/-- The byte lies in the view, for an access that sees a format. -/
def InWindow (s : Snapshot) (a : ViewAccess) (f : ViewFormat) (k : Nat) : Prop :=
  s.baseOf a f ≤ k ∧ k < s.stopOf a f

/-- The byte lies in a component of the element that starts at `start`. -/
def InComponent (f : ViewFormat) (start c k : Nat) : Prop :=
  start + c * f.byteWidth.toNat ≤ k ∧ k < start + (c + 1) * f.byteWidth.toNat

variable {s s' : Snapshot} {a : ViewAccess} {f : ViewFormat} {index : UInt32} {offset : UInt64} {e : Element}
  {start : Nat}

theorem element?_of_length {bytes : Bytes} (h : bytes.length = s.data.length) :
    ({ s with data := bytes } : Snapshot).element? a = s.element? a := by
  have hempty : bytes.isEmpty = s.data.isEmpty := by
    rw [Bool.eq_iff_iff, List.isEmpty_iff_length_eq_zero, List.isEmpty_iff_length_eq_zero, h]
  unfold element? locate? bufferElement? formatFor? length
  rw [h, hempty]

theorem Found.inWindow (h : s.Found a f start e) (hbase : s.baseOf a f ≤ start) {c k : Nat}
    (hc : c < e.format.numComps.toNat) (hk : InComponent f start c k) : s.InWindow a f k := by
  have hinside := (h.inside c hc).2
  have hle := Nat.le_add_right start (c * f.byteWidth.toNat)
  unfold InComponent at hk
  exact ⟨by omega, by omega⟩

theorem Found.isPlain (h : s.Found a f start e) (hf : f.IsPlain) : e.format.IsPlain := by
  rw [h.format]
  exact hf

theorem Found.not_isLossy (h : s.Found a f start e) (hf : ¬ f.IsLossy) : ¬ e.format.IsLossy := by
  rw [h.format]
  exact hf

theorem Found.width (h : s.Found a f start e) : e.format.byteWidth = f.byteWidth := by rw [h.format]

/-- What a store writes that finds its element: where it is given no value it writes what it has decoded. -/
theorem texel_of_store? {values : Vector (Option Variable) 4} (h : s.store? a values = some s') :
    ∃ e texel, s.element? a = some e ∧
      s' = s.encodeAt e.offset { e.format with numComps := min a.columns e.format.numComps } texel ∧
      ∀ c (hc : c < 4), values[c] = none → texel[c] = (s.decodeAt e)[c] := by
  obtain ⟨e, he, rfl⟩ := Option.map_eq_some_iff.1 h
  refine ⟨e, _, he, rfl, fun c hc hnone => ?_⟩
  rw [Vector.getElem_ofFn, Fin.getElem_fin]
  exact hnone ▸ rfl

/-- An element that is encoded changes bytes of components only that get another word. -/
theorem encodeAt_changedIn {g : ViewFormat} (hg : g.IsPlain) (hstart : start ≤ s.data.length) (texel : Texel) :
    s.ChangedIn (fun k => ∃ c < g.comps, InComponent g start c k ∧ g.toWord (texel[c]?.getD 0) ≠
      Bytes.wordAt (s.data.drop start) (c * g.byteWidth.toNat) g.byteWidth.toNat) (s.encodeAt start g texel) := by
  refine ⟨rfl, length_encodeAt .., fun {k} hk => ?_⟩
  have hbehind : start ≤ k := by
    refine Nat.le_of_not_lt fun hlt => hk ?_
    rw [encodeAt, List.getElem?_append_left (by rw [List.length_take]; omega), List.getElem?_take_of_lt hlt]
  obtain ⟨j, rfl⟩ := Nat.exists_eq_add_of_le hbehind
  rw [← List.getElem?_drop, ← List.getElem?_drop, drop_encodeAt g texel hstart] at hk
  obtain ⟨c, hc, hlow, hhigh, hword⟩ := ViewFormat.exists_of_encode_ne hg hk
  exact ⟨c, hc, ⟨by omega, by omega⟩, hword⟩

/-- A store changes bytes of the window only. Unless components are rounded, it changes none but those that are
    given a value. -/
theorem store?_changedIn (ha : a.address = .buffer index offset) (hf : s.formatAt? a = some f)
    (hplain : f.IsPlain) (hstart : s.startOf a f index offset < 2 ^ 64) {values : Vector (Option Variable) 4}
    (h : s.store? a values = some s') :
    s.ChangedIn (fun k => s.InWindow a f k ∧ (¬ f.IsLossy → ∃ c, ∃ hc : c < 4, values[c].isSome ∧
      InComponent f (s.startOf a f index offset) c k)) s' := by
  have hwidth := hplain.width_bounds
  obtain ⟨e, texel, he, rfl, htexel⟩ := texel_of_store? h
  have hfound := Found.of_element? ha hf ⟨hwidth.1, by omega⟩ hstart he
  have hbase : s.baseOf a f ≤ s.startOf a f index offset := ViewInfo.base_le_start ..
  generalize s.startOf a f index offset = start at *
  have hlt := hfound.start_lt
  rw [hfound.offset]
  obtain ⟨g, hg⟩ : ∃ g, { e.format with numComps := min a.columns e.format.numComps } = g := ⟨_, rfl⟩
  have hgWidth : g.byteWidth = f.byteWidth := hg ▸ hfound.width
  rw [hg]
  have hchanged := encodeAt_changedIn (s := s) (hg ▸ hfound.isPlain hplain : g.IsPlain) (Nat.le_of_lt hlt) texel
  refine ⟨hchanged.frame, hchanged.length, fun {k} hk => ?_⟩
  obtain ⟨c, hc, hin, hword⟩ := hchanged.bytes hk
  have hinF : InComponent f start c k := by
    rwa [InComponent, hgWidth] at hin
  -- no component is written that the element does not have
  have hcomps : c < e.format.numComps.toNat ∧ c < 4 := by
    rw [ViewFormat.comps, ← hg, UInt32.toNat_min] at hc
    omega
  refine ⟨hfound.inWindow hbase hcomps.1 hinF, fun hlossy => ⟨c, hcomps.2, ?_, hinF⟩⟩
  refine Option.isSome_iff_ne_none.2 fun hnone => hword ?_
  have hkept : texel[c]?.getD 0 = g.ofWord
      (Bytes.wordAt (s.data.drop start) (c * g.byteWidth.toNat) g.byteWidth.toNat) := by
    rw [Vector.getElem?_eq_getElem hcomps.2, Option.getD_some, htexel c hcomps.2 hnone, decodeAt, hfound.offset,
      ViewFormat.getElem_decode (hfound.isPlain hplain) (Nat.lt_min.2 hcomps), ← hg]
    rfl
  rw [hkept]
  refine ViewFormat.toWord_ofWord (hg ▸ hfound.isPlain hplain) ?_ (Bytes.wordAt_lt ..)
  rw [← hg]
  exact hfound.not_isLossy hlossy

/-- A load depends on no byte outside of the window. -/
theorem load?_of_changedIn (ha : a.address = .buffer index offset) (hf : s.formatAt? a = some f)
    (hplain : f.IsPlain) (hstart : s.startOf a f index offset < 2 ^ 64)
    (h : s.ChangedIn (fun k => ¬ s.InWindow a f k) s') : s'.load? a = s.load? a := by
  have hwidth := hplain.width_bounds
  have helement : s'.element? a = s.element? a := by
    rw [h.frame]
    exact element?_of_length h.length
  unfold load?
  rw [helement]
  cases he : s.element? a with
  | none => rw [Option.map_none, Option.map_none]
  | some e =>
      have hfound := Found.of_element? ha hf ⟨hwidth.1, by omega⟩ hstart he
      have hbase : s.baseOf a f ≤ s.startOf a f index offset := ViewInfo.base_le_start ..
      generalize s.startOf a f index offset = start at *
      have hdecode : s'.decodeAt e = s.decodeAt e := by
        refine ViewFormat.decode_congr (hfound.isPlain hplain) fun c hc => ?_
        refine Bytes.wordAt_congr ?_ fun k hlow hhigh => ?_
        · rw [List.length_drop, List.length_drop, h.length]
        · rw [List.getElem?_drop, List.getElem?_drop, hfound.offset]
          refine Decidable.not_not.1 fun hne => h.bytes hne ?_
          rw [hfound.width] at hlow hhigh
          rw [ViewFormat.comps] at hc
          exact hfound.inWindow hbase (c := c) (by omega) ⟨by omega, by rw [Nat.succ_mul]; omega⟩
      rw [Option.map_some, Option.map_some, hdecode]

end Snapshot

end Lockstep
