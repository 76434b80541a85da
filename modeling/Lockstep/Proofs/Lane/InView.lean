import Lockstep.Proofs.Lane.Reload
import Lockstep.Proofs.Lane.Seen
import Lockstep.Proofs.View.InView

set_option autoImplicit false

/-! # Buffer accesses of lanes stay inside the view

A lane that stores to a buffer leaves every byte outside of the view's window as it was, and a lane that loads
from one goes on in the same way whatever these bytes are (`Lane.stays_in_view`). -/

namespace Lockstep

namespace Lane

/-- Where a store ends: behind the last value that it is given. -/
def columnsOf (values : Vector (Option Variable) 4) : Nat :=
  4 - (values.toList.reverse.takeWhile Option.isNone).length

/-- The lane is about to store some of four values to a buffer element. -/
inductive Puts (l : Lane) (p : Program) (as : Analyses) (h : Handle) (index : UInt32) (offset : UInt64)
    (values : Vector (Option Variable) 4) (a : ViewAccess) : Prop
  | mk {i : Instr} {op : Intrinsic} {v : Variable} (hop : op = .bufferStore ∨ op = .rawBufferStore)
      (hnext : l.nextAccess? p as = some (i, op, h)) (hcls : h.ref.cls = .uav)
      (haddress : l.address i 1 false = .ok (.buffer index offset)) (hvalues : l.storedValues i 3 = .ok values)
      (hfirst : values.toList.findSome? id = some v)
      (ha : a = { structStride := h.structStride?, elem := v.elem, columns := (columnsOf values).toUInt32
                  address := .buffer index offset })

/-- The lane is about to load a buffer element. -/
inductive Takes (l : Lane) (p : Program) (as : Analyses) (h : Handle) (index : UInt32) (offset : UInt64)
    (a : ViewAccess) : Prop
  | mk {i : Instr} {op : Intrinsic} {ty : Ty} {m : Nat} (hop : op = .bufferLoad ∨ op = .rawBufferLoad)
      (hnext : l.nextAccess? p as = some (i, op, h)) (hcls : h.ref.cls = .srv ∨ h.ref.cls = .uav)
      (haddress : l.address i 1 false = .ok (.buffer index offset)) (htypes : i.loadedTypes op = .ok (ty, m))
      (ha : a = { structStride := h.structStride?, elem := ty.elem, columns := m.toUInt32
                  address := .buffer index offset })

variable {l : Lane} {s : Setting} {w : World} {h : Handle} {index : UInt32} {offset : UInt64} {a : ViewAccess}
  {f : ViewFormat} {seen : Snapshot}

/-- A store to a buffer succeeds, and replaces the snapshot by what the store makes of it. -/
theorem Puts.step {values : Vector (Option Variable) 4}
    (hputs : l.Puts s.program s.analyses h index offset values a) (hseen : w.seen s.host h.ref = seen)
    (htexture : seen.isTexture = false) :
    (∃ state, (l.step s w).result = .ok state) ∧
      (l.step s w).world = (w.uav s.host h.ref.slot).2.setUav h.ref.slot ((seen.store? a values).getD seen) := by
  obtain ⟨hop, hnext, hcls, haddress, hvalues, hfirst, rfl⟩ := hputs
  rename_i i op v
  rw [World.seen_of_uav hcls] at hseen
  have hargs : op.valueArg = 3 ∧ op.addressArg = 1 := by rcases hop with rfl | rfl <;> exact ⟨rfl, rfl⟩
  have haccess : l.access i op h (w.uav s.host h.ref.slot).1 = .ok (.proceed, (seen.store?
      { structStride := h.structStride?, elem := v.elem, columns := (columnsOf values).toUInt32
        address := .buffer index offset } values).getD seen) := by
    rw [hseen]
    exact access_of_store (hop.imp_right .inl) (by rw [hargs.1, hvalues]) hfirst
      (by rw [hargs.2, htexture, haddress])
  obtain ⟨hok, hworld, -⟩ := step_of_access hnext hcls haccess (by rintro _ _ _ ⟨⟩)
  exact ⟨hok, hworld⟩

/-- A load from a buffer depends on the element that it names, if that is loaded alike. -/
theorem Takes.step {host : Host} {w' : World} (htakes : l.Takes s.program s.analyses h index offset a)
    (hseen : w.seen s.host h.ref = seen) (htexture : seen.isTexture = false)
    (htexture' : (w'.seen host h.ref).isTexture = false) (hload : (w'.seen host h.ref).load? a = seen.load? a) :
    (l.step { s with host } w').result = (l.step s w).result ∧
      (l.step { s with host } w').lane = (l.step s w).lane := by
  obtain ⟨hop, hnext, hcls, haddress, htypes, rfl⟩ := htakes
  rename_i i op ty m
  refine step_of_loadFrom hnext hop hcls (hseen ▸ htexture) htexture' ?_
  have harg : op.addressArg = 1 := by rcases hop with rfl | rfl <;> rfl
  rw [loadFrom, loadFrom, htypes, harg, hseen, htexture, htexture', haddress]
  cases i.resultId with
  | error fault => rfl
  | ok id =>
      dsimp only [bind, Except.bind]
      rw [hload]
      cases seen.load? _ <;> rfl

/-- A store to a buffer changes bytes of the view's window only and, unless components are rounded, of components
    only that it is given a value for. A load from a buffer gives the same, and the lane goes on in the same way,
    whatever the bytes outside of the window are. -/
theorem stays_in_view (hseen : w.seen s.host h.ref = seen) (htexture : seen.isTexture = false)
    (hformat : seen.formatAt? a = some f) (hplain : f.IsPlain)
    (hstart : seen.startOf a f index offset < 2 ^ 64) :
    (∀ {values}, l.Puts s.program s.analyses h index offset values a →
      (∃ state, (l.step s w).result = .ok state) ∧
        ∃ left, (l.step s w).world = (w.uav s.host h.ref.slot).2.setUav h.ref.slot left ∧
          seen.ChangedIn (fun k => seen.InWindow a f k ∧ (¬ f.IsLossy → ∃ c, ∃ hc : c < 4, values[c].isSome ∧
            Snapshot.InComponent f (seen.startOf a f index offset) c k)) left) ∧
      (l.Takes s.program s.analyses h index offset a → ∀ {host w'},
        seen.ChangedIn (fun k => ¬ seen.InWindow a f k) (w'.seen host h.ref) →
        (l.step { s with host } w').result = (l.step s w).result ∧
          (l.step { s with host } w').lane = (l.step s w).lane) := by
  constructor
  · intro values hputs
    obtain ⟨hok, hworld⟩ := hputs.step hseen htexture
    refine ⟨hok, _, hworld, ?_⟩
    have ha : a.address = .buffer index offset := by
      obtain ⟨-, -, -, -, -, -, rfl⟩ := hputs
      rfl
    cases hstore : seen.store? a values with
    | none => exact .refl seen
    | some left => exact Snapshot.store?_changedIn ha hformat hplain hstart hstore
  · intro htakes host w' hchanged
    have ha : a.address = .buffer index offset := by
      obtain ⟨-, -, -, -, -, rfl⟩ := htakes
      rfl
    refine htakes.step hseen htexture ?_ (Snapshot.load?_of_changedIn ha hformat hplain hstart hchanged)
    rw [hchanged.frame]
    exact htexture

/-- A view of the first eight of twelve bytes, as two-byte components see it. -/
def firstEightOfTwelve : Snapshot :=
  { info := { numElements := 4, isByteBuffer := true }, data := List.replicate 12 7 }

/-- The access of the store of `storeThenLoad`, and that of its load. -/
def shortsAtFour (columns : UInt32) : ViewAccess :=
  { structStride := none, elem := .sShort, columns, address := .buffer 4 0 }

/-- The format in which these accesses see the view. -/
def shortsFormat (columns : UInt32) : ViewFormat :=
  { byteWidth := 2, numComps := columns, kind := .sInt, stride := 1 }

/-- The two components that the store has values for are the bytes from the fourth to the seventh. -/
theorem byte_of_inComponent {values : Vector (Option Variable) 4} {c k : Nat} (hc : c < 4)
    (hthird : values[2].isNone) (hfourth : values[3].isNone) (hgiven : values[c].isSome)
    (hin : Snapshot.InComponent (shortsFormat 2) 4 c k) : 4 ≤ k ∧ k < 8 := by
  have hwidth : (shortsFormat 2).byteWidth.toNat = 2 := rfl
  obtain ⟨hlow, hhigh⟩ := hin
  rw [hwidth] at hlow hhigh
  have hcases : c = 0 ∨ c = 1 ∨ c = 2 ∨ c = 3 := by omega
  rcases hcases with rfl | rfl | rfl | rfl
  · omega
  · omega
  · rw [Option.isNone_iff_eq_none.1 hthird] at hgiven
    cases hgiven
  · rw [Option.isNone_iff_eq_none.1 hfourth] at hgiven
    cases hgiven

set_option synthInstance.maxSize 512 in
/-- The lane of `storeThenLoad` changes the four bytes that it has values for, and what it loads then does not depend
    on the bytes behind the view. -/
theorem storeThenLoad_stays_in_view :
    ∃ (s₀ s : Session) (l : Lane) (left : Snapshot),
      Session.new storeThenLoad {} (({} : World).setUav (.ofRegister 0 0) firstEightOfTwelve) [{}] 0 {} = .ok s₀ ∧
      s₀.start.session.advance .unbound 1 = .ok s ∧ s.lanes[0]? = some l ∧
      (l.step (s.setting .unbound 0) s.world).world.uavs.get? (.ofRegister 0 0) = some left ∧
      (∀ k, left.data[k]? ≠ firstEightOfTwelve.data[k]? → 4 ≤ k ∧ k < 8) ∧
      ∀ host w', left.ChangedIn (8 ≤ ·) (w'.uav host (.ofRegister 0 0)).1 →
        ((l.step (s.setting .unbound 0) s.world).lane.step { s.setting .unbound 0 with host } w').lane =
          ((l.step (s.setting .unbound 0) s.world).lane.step (s.setting .unbound 0)
            (l.step (s.setting .unbound 0) s.world).world).lane := by
  have h : ∃ s₀, Session.new storeThenLoad {} (({} : World).setUav (.ofRegister 0 0) firstEightOfTwelve) [{}] 0 {} =
        .ok s₀ ∧
      ∃ states, s₀.start.result = .ok states ∧ ∃ s, s₀.start.session.advance .unbound 1 = .ok s ∧
      (s.world.uav .unbound (.ofRegister 0 0)).1 = firstEightOfTwelve ∧ ∃ l, s.lanes[0]? = some l ∧
      (∃ x, l.nextAccess? s.program s.analyses = some x ∧ l.AtFour .rawBufferStore x ∧
        ∃ values, l.storedValues x.1 3 = .ok values ∧ (values[2].isNone ∧ values[3].isNone ∧
          columnsOf values = 2 ∧ ∃ v, values.toList.findSome? id = some v ∧ v.elem = .sShort)) ∧
      ∃ l', some (l.step (s.setting .unbound 0) s.world).lane = some l' ∧
      ∃ x, l'.nextAccess? s.program s.analyses = some x ∧ l'.AtFour .rawBufferLoad x ∧
        ∃ y, x.1.loadedTypes x.2.1 = .ok y ∧ (y.1.elem = .sShort ∧ y.2 = 3) := by
    decide +kernel
  obtain ⟨s₀, hnew, _, -, s, hs, hseen, l, hl,
    ⟨⟨i, op, hd⟩, hnext, ⟨hop, hcls, hslot, hstride, _, haddress, rfl⟩, values, hvalues, hthird, hfourth,
      hcolumns, v, hfirst, helem⟩, l', hl',
    ⟨i', op', hd'⟩, hnext', ⟨hop', hcls', hslot', hstride', _, haddress', rfl⟩, ⟨ty, m⟩, htypes, helem', rfl⟩ := h
  cases hl'
  obtain ⟨t, ht⟩ : ∃ t, s.setting .unbound 0 = t := ⟨_, rfl⟩
  have hputs : l.Puts t.program t.analyses hd 4 0 values (shortsAtFour 2) := by
    subst ht
    refine ⟨.inr hop, hnext, hcls, haddress, hvalues, hfirst, ?_⟩
    rw [hstride, helem, hcolumns]
    rfl
  have htakes : (l.step t s.world).lane.Takes t.program t.analyses hd' 4 0 (shortsAtFour 3) := by
    subst ht
    refine ⟨.inr hop', hnext', .inr hcls', haddress', htypes, ?_⟩
    rw [hstride', helem']
    rfl
  have hfound : s.world.seen t.host hd.ref = firstEightOfTwelve := by
    subst ht
    rw [World.seen_of_uav hcls, hslot]
    exact hseen
  obtain ⟨-, left, hworld, hchanged⟩ :=
    (stays_in_view hfound rfl (f := shortsFormat 2) rfl (by decide) (by decide)).1 hputs
  rw [hslot] at hworld
  have hcached : (l.step t s.world).world.uavs.get? (.ofRegister 0 0) = some left := by
    rw [hworld]
    exact Table.get?_insert_self ..
  have hleft : (l.step t s.world).world.seen t.host hd'.ref = left := by
    rw [World.seen_of_uav hcls', hslot', World.uav_of_cached hcached]
  obtain ⟨bytes, rfl⟩ : ∃ bytes, left = { firstEightOfTwelve with data := bytes } := ⟨_, hchanged.frame⟩
  subst ht
  refine ⟨s₀, s, l, _, hnew, hs, hl, hcached, fun k hk => ?_, fun host w' hw' => ?_⟩
  · obtain ⟨-, hcomps⟩ := hchanged.bytes hk
    obtain ⟨c, hc, hgiven, hin⟩ := hcomps (by decide)
    have hstart : firstEightOfTwelve.startOf (shortsAtFour 2) (shortsFormat 2) 4 0 = 4 := by decide
    exact byte_of_inComponent hc hthird hfourth hgiven (hstart ▸ hin)
  · have hstart :
        Snapshot.startOf { firstEightOfTwelve with data := bytes } (shortsAtFour 3) (shortsFormat 3) 4 0 < 2 ^ 64 := by
      show (4 : Nat) < 2 ^ 64
      decide
    refine ((stays_in_view hleft rfl (f := shortsFormat 3) rfl (by decide) hstart).2 htakes
      ⟨?_, ?_, fun {k} hk hin => ?_⟩).2
    · rw [World.seen_of_uav hcls', hslot']
      exact hw'.frame
    · rw [World.seen_of_uav hcls', hslot']
      exact hw'.length
    · rw [World.seen_of_uav hcls', hslot'] at hk
      -- the window ends behind the eighth byte
      exact Nat.not_lt_of_le (hw'.bytes hk) hin.2

end Lane

end Lockstep
