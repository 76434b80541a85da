import Lockstep.Proofs.Lane.Access
import Lockstep.Proofs.View.RoundTrip

set_option autoImplicit false

/-! # Loading what was stored to a buffer

A lane that stores values to a read-write buffer and a lane that loads from the same address meet in the
snapshot of the buffer's slot. As long as no lane writes to the slot, the load gives the bits that were
stored (`Lane.load_of_store`). -/

namespace Lockstep

/-- A host that answers with one snapshot for every read-write resource, and has nothing else. -/
def Host.withUav (s : Snapshot) : Host where
  answer := fun log r => match r with
    | .fetchUav _ => some s
    | r => Host.unbound.answer log r

/-- What comes of a world by steps of lanes that do not write to a slot. -/
inductive World.Unwritten (slot : Slot) (w : World) : World → Prop
  | refl : Unwritten slot w w
  | step {w' : World} {l : Lane} {s : Setting} {state : StepState} (h : Unwritten slot w w')
      (hno : ¬ l.isFinished → ∀ {a i}, l.nextInstr s.program s.analyses = .ok (a, i) →
        ¬ l.Stores s.program i slot)
      (hok : (l.step s w').result = .ok state) : Unwritten slot w (l.step s w').world

/-- The snapshot of the slot stays. -/
theorem World.Unwritten.get?_uavs {slot : Slot} {w w' : World} {snapshot : Snapshot}
    (h : w.Unwritten slot w') (hs : w.uavs.get? slot = some snapshot) : w'.uavs.get? slot = some snapshot := by
  induction h with
  | refl => exact hs
  | @step w' l s state _ hno hok ih =>
      by_cases hfin : l.isFinished
      · rwa [Lane.world_step_of_isFinished hfin]
      · obtain ⟨a, i, _, hnext, -⟩ := Lane.step_cases hfin hok
        exact (Lane.keeps_of_step hfin hok hnext).uav (hno hfin hnext) ih

theorem Instr.not_isFlushing_of_intrinsic {i : Instr} {op : Intrinsic} (hop : i.intrinsic? = some op)
    (hkeeps : op.isFlushing = false) : ¬ i.isFlushing := by
  unfold isFlushing
  rw [(i.eq_of_intrinsic? hop).1, hop]
  simp [hkeeps]

theorem Variable.compCount_row {name : String} {t : ElemType} {columns : Nat} (h : columns < 256) :
    (row name t columns.toUInt8).compCount = columns := by
  show 1 * (columns % 256) = columns
  omega

/-- An access leaves subnormal components as they are. -/
theorem Instr.not_isFlushing_of_accesses {i : Instr} {op : Intrinsic} (hop : i.intrinsic? = some op)
    (hacc : op.accesses) : ¬ i.isFlushing :=
  not_isFlushing_of_intrinsic hop (by cases op <;> first | rfl | cases hacc)

namespace Lane

variable {l l' : Lane} {p : Program} {as : Analyses} {i : Instr} {h : Handle} {index : UInt32}
  {offset : UInt64} {t : ElemType} {k m : Nat} {id : Id} {v : Nat → Variable} {s : Snapshot}

/-- The lane is about to store `k` values at an address of a buffer. -/
inductive BufferStores (l : Lane) (p : Program) (as : Analyses) (h : Handle) (index : UInt32)
    (offset : UInt64) (k : Nat) (v : Nat → Variable) : Prop
  | mk {i : Instr} {op : Intrinsic} (hop : op = .bufferStore ∨ op = .rawBufferStore)
      (hnext : l.nextAccess? p as = some (i, op, h)) (hcls : h.ref.cls = .uav)
      (haddress : l.address i 1 false = .ok (.buffer index offset))
      (hvalues : ∀ c < 4, if c < k then i.hasArg (3 + c) ∧ l.arg i (3 + c) = .ok (v c) else ¬ i.hasArg (3 + c))

/-- The lane is about to load `m` components of a type from an address of a buffer. -/
inductive BufferLoads (l : Lane) (p : Program) (as : Analyses) (h : Handle) (index : UInt32)
    (offset : UInt64) (t : ElemType) (m : Nat) (id : Id) : Prop
  | mk {i : Instr} {op : Intrinsic} {ty : Ty} (hop : op = .bufferLoad ∨ op = .rawBufferLoad)
      (hnext : l.nextAccess? p as = some (i, op, h)) (hcls : h.ref.cls = .uav)
      (haddress : l.address i 1 false = .ok (.buffer index offset))
      (htypes : i.loadedTypes op = .ok (ty, m)) (helem : ty.elem = t) (hresult : i.result = some id)
      (hplace : l.hasPlace id)

/-- The operands of a store are collected as far as they are there. -/
theorem storedValues_of_args
    (h : ∀ c < 4, if c < k then i.hasArg (3 + c) ∧ l.arg i (3 + c) = .ok (v c) else ¬ i.hasArg (3 + c)) :
    ∃ values, l.storedValues i 3 = .ok values ∧
      ∀ c (hc : c < 4), values[c] = if c < k then some (v c) else none := by
  have hvalue : ∀ c < 4, (if i.hasArg (3 + c) then (l.arg i (3 + c)).map some else .ok none) =
      .ok (if c < k then some (v c) else none) := fun c hc => by
    have hc := h c hc
    split at hc
    · next hlt => rw [if_pos hc.1, hc.2, if_pos hlt]; rfl
    · next hge => rw [if_neg hc, if_neg hge]
  refine ⟨Vector.ofFn fun c : Fin 4 => if c.val < k then some (v c) else none, ?_, fun c hc => ?_⟩
  · unfold storedValues
    simp only [hvalue 0 (by decide), hvalue 1 (by decide), hvalue 2 (by decide), hvalue 3 (by decide)]
    rfl
  · rw [Vector.getElem_ofFn]

/-- A store of `k` values that finds its element replaces it. -/
theorem storeInto_eq {op : Intrinsic} (hop : op = .bufferStore ∨ op = .rawBufferStore)
    (haddress : l.address i 1 false = .ok (.buffer index offset))
    (hvalues : ∀ c < 4, if c < k then i.hasArg (3 + c) ∧ l.arg i (3 + c) = .ok (v c) else ¬ i.hasArg (3 + c))
    (htexture : s.isTexture = false) (hk : 0 < k) (hk4 : k ≤ 4) (helem : (v 0).elem = t) :
    ∃ values, (∀ c (hc : c < 4), values[c] = if c < k then some (v c) else none) ∧
      l.access i op h s = .ok (.proceed,
        (s.store? (Snapshot.bufferAccess h.structStride? t k index offset) values).getD s) := by
  obtain ⟨values, hstored, hcomps⟩ := storedValues_of_args hvalues
  refine ⟨values, hcomps, ?_⟩
  have hlist : values.toList = (List.range 4).map fun c => if c < k then some (v c) else none := by
    refine List.ext_getElem (by simp) fun c hc _ => ?_
    rw [Vector.length_toList] at hc
    rw [Vector.getElem_toList, hcomps c hc, List.getElem_map, List.getElem_range]
  have hfirst : values.toList.findSome? id = some (v 0) := by
    rw [hlist, List.range_succ_eq_map, List.map_cons, List.findSome?_cons, if_pos hk]
    rfl
  have hcolumns : 4 - (values.toList.reverse.takeWhile Option.isNone).length = k := by
    rw [hlist]
    have : k = 1 ∨ k = 2 ∨ k = 3 ∨ k = 4 := by omega
    rcases this with rfl | rfl | rfl | rfl <;> rfl
  have hargs : op.valueArg = 3 ∧ op.addressArg = 1 := by rcases hop with rfl | rfl <;> exact ⟨rfl, rfl⟩
  rw [access_of_store (hop.imp_right .inl) (by rw [hargs.1, hstored]) hfirst (by rw [hargs.2, htexture, haddress]),
    hcolumns, helem]
  rfl

theorem get_row_fill {name : String} {c : Nat} {f : Nat → UInt64} (hm : m < 16) (hc : c < m) :
    ((Variable.row name t m.toUInt8).fill f).get c = f c := by
  show ((Variable.row name t m.toUInt8).value.fill _ f).get c = f c
  rw [Value.get_fill, Variable.compCount_row (by omega), if_pos ⟨hc, Nat.lt_trans hc hm⟩]

/-- A load gives as many components as its structure has members before the last, and four at most. -/
theorem members_of_loadedTypes {op : Intrinsic} {ty : Ty} (h : i.loadedTypes op = .ok (ty, m)) :
    ∃ status rest, i.ty.structMembers? = some (ty :: status :: rest) ∧ m = min (rest.length + 1) 4 := by
  unfold Instr.loadedTypes at h
  split at h
  · next hmembers =>
      cases h
      exact ⟨_, _, hmembers, rfl⟩
  · cases h

theorem le_of_loadedTypes {op : Intrinsic} {ty : Ty} (h : i.loadedTypes op = .ok (ty, m)) : m ≤ 4 := by
  obtain ⟨_, _, -, rfl⟩ := members_of_loadedTypes h
  exact Nat.min_le_right ..

/-- A load that finds its element gives its components. -/
theorem loadFrom_eq {op : Intrinsic} {ty : Ty} (hop : op = .bufferLoad ∨ op = .rawBufferLoad)
    (haddress : l.address i 1 false = .ok (.buffer index offset)) (htypes : i.loadedTypes op = .ok (ty, m))
    (helem : ty.elem = t) (hresult : i.result = some id) (htexture : s.isTexture = false) {comps : Texel}
    (hload : s.load? (Snapshot.bufferAccess h.structStride? t m index offset) = some comps) :
    l.access i op h s = .ok (.value id
      ((Variable.row (i.resultName id) t m.toUInt8).fill fun c => comps[c]?.getD 0), s) := by
  have hloads : l.access i op h s = l.loadFrom i op h s := by rcases hop with rfl | rfl <;> rfl
  have harg : op.addressArg = 1 := by rcases hop with rfl | rfl <;> rfl
  have hid : i.resultId = .ok id := by rw [Instr.resultId, hresult]
  rw [hloads, loadFrom, hid, htypes, harg]
  show (do let address ← l.address i 1 s.isTexture; _) = _
  rw [htexture, haddress, helem]
  dsimp only [bind, Except.bind]
  rw [show s.load? ⟨_, _, _, _⟩ = some comps from hload]
  rfl

/-- A store of values of one type to a read-write buffer succeeds, and as long as no lane writes to its slot,
    a load from the same address succeeds and gives the bits that were stored. -/
theorem load_of_store {setting : Setting} {w : World}
    (hstore : l.BufferStores setting.program setting.analyses h index offset k v)
    (hseen : (w.uav setting.host h.ref.slot).1 = s) (htexture : s.isTexture = false)
    (hsuits : s.info.Suits h.structStride? t k) (hinside : s.Inside h.structStride? t index offset k)
    (hk : 0 < k) (hk4 : k ≤ 4) (hv : ∀ c < k, (v c).elem = t ∧ ((v c).get 0).toNat < 2 ^ t.bits) :
    (∃ state, (l.step setting w).result = .ok state) ∧
      ∀ {w' : World} {l' : Lane} {setting' : Setting} {h' : Handle} {m : Nat} {id : Id},
        (l.step setting w).world.Unwritten h.ref.slot w' →
        l'.BufferLoads setting'.program setting'.analyses h' index offset t m id →
        h'.ref.slot = h.ref.slot → h'.structStride? = h.structStride? → k ≤ m →
        (∃ state, (l'.step setting' w').result = .ok state) ∧
          ∃ r, (l'.step setting' w').lane.value? id = some r ∧ ∀ c < k, r.get c = (v c).get 0 := by
  obtain ⟨hop, hnext, hcls, haddress, hargs⟩ := hstore
  obtain ⟨values, hvalues, haccess⟩ := storeInto_eq (h := h) hop haddress hargs htexture hk hk4 (hv 0 hk).1
  rw [← hseen] at haccess
  obtain ⟨hok, hworld, -⟩ := step_of_access hnext hcls haccess nofun
  refine ⟨hok, ?_⟩
  intro w' l' setting' h' m id hunwritten hload hslot hstride hm
  obtain ⟨hop', hnext', hcls', haddress', htypes, helem, hresult, hplace⟩ := hload
  have hm4 := le_of_loadedTypes htypes
  obtain ⟨stored, comps, hstored, htexture', hloaded, hcomps⟩ :=
    Snapshot.load?_store? hsuits hinside hk hm hm4 hvalues hv
  -- the snapshot that the store has left is the one that the load sees
  have hcached : w'.uavs.get? h'.ref.slot = some stored := by
    rw [hslot]
    refine hunwritten.get?_uavs ?_
    rw [hworld, hseen, hstored]
    exact Table.get?_insert_self ..
  rw [← hstride] at hloaded
  have haccess' := loadFrom_eq hop' haddress' htypes helem hresult (htexture'.trans htexture) hloaded
  have huav : w'.uav setting'.host h'.ref.slot = (stored, w') := World.uav_of_cached hcached
  obtain ⟨hok', -, hvalue⟩ := step_of_access hnext' hcls' (w := w') (by rw [huav]; exact haccess') (by
    rintro _ _ _ ⟨⟩
    exact hplace)
  refine ⟨hok', _, hvalue _ _ _ rfl, fun c hc => ?_⟩
  have hc4 : c < 4 := Nat.lt_of_lt_of_le hc hk4
  obtain ⟨-, _, _, _, -, hcall, hacc, -⟩ := nextAccess?_eq_some_iff.1 hnext'
  rw [Instr.assigned, if_neg (Instr.not_isFlushing_of_accesses hcall hacc), get_row_fill (by omega) (by omega),
    Vector.getElem?_eq_getElem hc4]
  exact hcomps c hc4 hc

/-- Stores two short numbers in a raw buffer and loads three from where it has put them. -/
def storeThenLoad : Program :=
  { stage := .compute
    resources := [{ name := "bytes", cls := .uav, kind := .rawBuffer }]
    functions := #[{
      name := "storeThenLoad"
      blocks := #[{}]
      instrs := #[
        { op := .call, ty := .handle, result := some ⟨0⟩, callee := some (.intrinsic .createHandle),
          args := [.const (.int 32 1), .const (.int 32 0), .const (.int 32 0)] },
        { op := .call, callee := some (.intrinsic .rawBufferStore),
          args := [.ref ⟨0⟩, .const (.int 32 4), .const (.int 32 0), .const (.int 16 0xfffe),
            .const (.int 16 5)] },
        { op := .call, ty := .struct "" [.int 16, .int 16, .int 16, .int 32], result := some ⟨1⟩,
          callee := some (.intrinsic .rawBufferLoad),
          args := [.ref ⟨0⟩, .const (.int 32 4), .const (.int 32 0)] },
        { op := .ret }] }]
    idCount := 2 }

/-- The buffer of this program has twelve bytes. -/
def twelveBytes : Snapshot :=
  { info := { numElements := 6, isByteBuffer := true }, data := List.replicate 12 7 }

/-- What an access of this program names. -/
def AtFour (l : Lane) (op : Intrinsic) (x : Instr × Intrinsic × Handle) : Prop :=
  x.2.1 = op ∧ x.2.2.ref.cls = .uav ∧ x.2.2.ref.slot = .ofRegister 0 0 ∧ x.2.2.structStride? = none ∧
    ∃ address, l.address x.1 1 false = .ok address ∧ address = .buffer 4 0

instance (l : Lane) (op : Intrinsic) (x : Instr × Intrinsic × Handle) : Decidable (l.AtFour op x) :=
  inferInstanceAs (Decidable (_ ∧ _))

set_option synthInstance.maxSize 512 in
/-- The lane of this program loads the two numbers that it has stored. -/
theorem storeThenLoad_reloads :
    ∃ (s₀ s : Session) (l l' : Lane) (r : Variable),
      Session.new storeThenLoad {} (({} : World).setUav (.ofRegister 0 0) twelveBytes) [{}] 0 {} = .ok s₀ ∧
      s₀.start.session.advance .unbound 1 = .ok s ∧ s.lanes[0]? = some l ∧
      (l.step (s.setting .unbound 0) s.world).lane = l' ∧
      (l'.step (s.setting .unbound 0) (l.step (s.setting .unbound 0) s.world).world).lane.value? ⟨1⟩ = some r ∧
      r.get 0 = 0xfffe ∧ r.get 1 = 5 := by
  have h : ∃ s₀, Session.new storeThenLoad {} (({} : World).setUav (.ofRegister 0 0) twelveBytes) [{}] 0 {} = .ok s₀ ∧
      ∃ states, s₀.start.result = .ok states ∧ ∃ s, s₀.start.session.advance .unbound 1 = .ok s ∧
      (s.world.uav .unbound (.ofRegister 0 0)).1 = twelveBytes ∧ ∃ l, s.lanes[0]? = some l ∧
      (∃ x, l.nextAccess? s.program s.analyses = some x ∧ l.AtFour .rawBufferStore x ∧
        (x.1.hasArg 3 ∧ ∃ v, l.arg x.1 3 = .ok v ∧ (v.elem = .sShort ∧ v.get 0 = 0xfffe)) ∧
        (x.1.hasArg 4 ∧ ∃ v, l.arg x.1 4 = .ok v ∧ (v.elem = .sShort ∧ v.get 0 = 5)) ∧
        ¬ x.1.hasArg 5 ∧ ¬ x.1.hasArg 6) ∧
      ∃ l', some (l.step (s.setting .unbound 0) s.world).lane = some l' ∧
      (∃ x, l'.nextAccess? s.program s.analyses = some x ∧ l'.AtFour .rawBufferLoad x ∧
        (∃ y, x.1.loadedTypes x.2.1 = .ok y ∧ (y.1.elem = .sShort ∧ y.2 = 3)) ∧ x.1.result = some ⟨1⟩ ∧
        l'.hasPlace ⟨1⟩) := by
    decide +kernel
  obtain ⟨s₀, hnew, _, -, s, hs, hseen, l, hl,
    ⟨⟨i, op, hd⟩, hnext, ⟨hop, hcls, hslot, hstride, _, haddress, rfl⟩, ⟨hhas, v, hv, hvElem, hvBits⟩,
      ⟨hhas', v', hv', hvElem', hvBits'⟩, hno, hno'⟩, l', hl',
    ⟨⟨i', op', hd'⟩, hnext', ⟨hop', hcls', hslot', hstride', _, haddress', rfl⟩,
      ⟨⟨ty, m⟩, htypes, helem, rfl⟩, hresult, hplace⟩⟩ := h
  cases hl'
  obtain ⟨values, hvalues⟩ : ∃ values : Nat → Variable, values = fun c => if c = 0 then v else v' := ⟨_, rfl⟩
  obtain ⟨t, ht⟩ : ∃ t, s.setting .unbound 0 = t := ⟨_, rfl⟩
  have hstore : l.BufferStores t.program t.analyses hd 4 0 2 values := by
    subst ht
    refine ⟨.inr hop, hnext, hcls, haddress, fun c hc => ?_⟩
    have : c = 0 ∨ c = 1 ∨ c = 2 ∨ c = 3 := by omega
    rcases this with rfl | rfl | rfl | rfl
    · exact ⟨hhas, hvalues ▸ hv⟩
    · exact ⟨hhas', hvalues ▸ hv'⟩
    · exact hno
    · exact hno'
  have hsuits : twelveBytes.info.Suits hd.structStride? .sShort 2 := .typeless rfl rfl (.inr (.inl rfl))
  have hinside : twelveBytes.Inside hd.structStride? .sShort 4 0 2 := by
    rw [hstride]
    constructor <;> decide
  have hfits : ∀ c < 2, (values c).elem = .sShort ∧ ((values c).get 0).toNat < 2 ^ ElemType.sShort.bits := by
    intro c hc
    have : c = 0 ∨ c = 1 := by omega
    rw [hvalues]
    rcases this with rfl | rfl
    · exact ⟨hvElem, by dsimp only; rw [if_pos rfl, hvBits]; decide⟩
    · exact ⟨hvElem', by dsimp only; rw [if_neg (by decide), hvBits']; decide⟩
  have hfound : (s.world.uav t.host hd.ref.slot).1 = twelveBytes := by
    subst ht
    rw [hslot]
    exact hseen
  have hload : (l.step t s.world).lane.BufferLoads t.program t.analyses hd' 4 0 .sShort 3 ⟨1⟩ :=
    ht ▸ ⟨.inr hop', hnext', hcls', haddress', htypes, helem, hresult, hplace⟩
  obtain ⟨-, r, hr, hbits⟩ := (load_of_store hstore hfound rfl hsuits hinside (by decide) (by decide) hfits).2
    .refl hload (hslot'.trans hslot.symm) (hstride'.trans hstride.symm) (by decide)
  subst ht
  refine ⟨s₀, s, l, _, r, hnew, hs, hl, rfl, hr, ?_, ?_⟩
  · rw [hbits 0 (by decide), hvalues]
    exact hvBits
  · rw [hbits 1 (by decide), hvalues]
    exact hvBits'

end Lane

end Lockstep
