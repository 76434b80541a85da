import Lockstep.Proofs.Lane.InView
import Lockstep.Proofs.View.Misses

set_option autoImplicit false

/-! # Degraded accesses

An access to a resource that is not bound, and one that finds no element, succeeds all the same: a load gives zeros, a
store does nothing, and what is cached of resources stays as it is (`Lane.degraded_reads_zero`). -/

namespace Lockstep

namespace World

/-- The snapshots in a table stay as they are, and those that come into it are what has been fetched. -/
structure KeepsSnapshots (fetched : Slot → Snapshot) (t t' : Table Slot Snapshot) : Prop where
  kept : ∀ {slot s}, t.get? slot = some s → t'.get? slot = some s
  added : ∀ {slot s}, t.get? slot = none → t'.get? slot = some s → s = fetched slot

namespace KeepsSnapshots

variable {fetched : Slot → Snapshot} {t : Table Slot Snapshot} {slot : Slot}

theorem refl (fetched : Slot → Snapshot) (t : Table Slot Snapshot) : KeepsSnapshots fetched t t :=
  ⟨id, fun hnone hs => absurd (hnone.symm.trans hs) nofun⟩

theorem insert (hnone : t.get? slot = none) : KeepsSnapshots fetched t (t.insert slot (fetched slot)) := by
  refine ⟨fun {slot' s} hs => ?_, fun {slot' s} hnone' hs => ?_⟩
  · refine (Table.get?_insert_of_ne _ ?_ _).trans hs
    rintro rfl
    rw [hnone] at hs
    cases hs
  · rw [Table.get?_insert] at hs
    split at hs
    · next heq =>
        cases hs
        rw [heq]
    · rw [hnone'] at hs
      cases hs

end KeepsSnapshots

/-- What is cached of resources stays as it is, and what comes to be cached is what the host has answered, or an empty
    snapshot where it has nothing. -/
structure Caches (host : Host) (w w' : World) : Prop where
  srvs : KeepsSnapshots (fun slot => (host.answer w.log (.fetchSrv slot)).getD {}) w.srvs w'.srvs
  uavs : KeepsSnapshots (fun slot => (host.answer w.log (.fetchUav slot)).getD {}) w.uavs w'.uavs

theorem Caches.refl (host : Host) (w : World) : w.Caches host w := ⟨.refl .., .refl ..⟩

/-- The snapshot that is bound to the slot of a reference: the one that is cached, or else the host's. -/
def bound? (host : Host) (w : World) (ref : ResourceRef) : Option Snapshot :=
  if ref.cls = .srv then (w.srvs.get? ref.slot).or (host.answer w.log (.fetchSrv ref.slot))
  else (w.uavs.get? ref.slot).or (host.answer w.log (.fetchUav ref.slot))

/-- No data are bound to the slot of a reference. -/
def Unbound (host : Host) (w : World) (ref : ResourceRef) : Prop :=
  ∀ s, w.bound? host ref = some s → s.data = []

/-- The world in which the snapshot that a load sees has been fetched. -/
def fetched (host : Host) (w : World) (ref : ResourceRef) : World :=
  if ref.cls = .srv then (w.srv host ref.slot).2 else (w.uav host ref.slot).2

theorem caches_fetched (host : Host) (w : World) (ref : ResourceRef) : w.Caches host (w.fetched host ref) := by
  unfold fetched srv uav
  split
  · split
    · exact .refl host w
    · next hnone => exact ⟨.insert hnone, .refl ..⟩
  · split
    · exact .refl host w
    · next hnone => exact ⟨.refl .., .insert hnone⟩

/-- What is seen through a reference is what is bound to its slot, or an empty snapshot. -/
theorem seen_eq (host : Host) (w : World) (ref : ResourceRef) : w.seen host ref = (w.bound? host ref).getD {} := by
  unfold seen bound? srv uav
  split
  · cases w.srvs.get? ref.slot <;> rfl
  · cases w.uavs.get? ref.slot <;> rfl

theorem Unbound.data_eq {host : Host} {w : World} {ref : ResourceRef} (h : w.Unbound host ref) :
    (w.seen host ref).data = [] := by
  rw [seen_eq]
  cases hs : w.bound? host ref with
  | none => rfl
  | some s => exact h s hs

end World

namespace Snapshot

/-- An access to the resource of a reference finds nothing: no data are bound, or none are where it looks. -/
def NotFound (host : Host) (w : World) (ref : ResourceRef) (a : ViewAccess) : Prop :=
  w.Unbound host ref ∨ (w.seen host ref).Misses a

theorem NotFound.misses {host : Host} {w : World} {ref : ResourceRef} {a : ViewAccess}
    (h : NotFound host w ref a) : (w.seen host ref).Misses a :=
  h.elim (fun h => .unbound h.data_eq) id

end Snapshot

namespace Step

variable {s : Setting} {m : Machine} {i : Instr} {op : Intrinsic} {h : Handle} {id : Id} {v : Variable} {ty : Ty}
  {columns : Nat} {address : ElementAddress}

/-- What a load gives that finds these components, or nothing. -/
def loaded (i : Instr) (id : Id) (ty : Ty) (columns : Nat) (comps : Option Texel) : Effect :=
  let result := Variable.row (i.resultName id) ty.elem columns.toUInt8
  match comps with
  | some comps => .value id (result.fill fun c => comps[c]?.getD 0)
  | none => .value id result

/-- A load gives what the snapshot has at the address, which is fetched first. Only read-write textures have
    coordinates. -/
theorem on_loadElement_of_ok (hcls : h.ref.cls = .srv ∨ h.ref.cls = .uav) (hid : i.resultId = .ok id)
    (htypes : i.loadedTypes op = .ok (ty, columns))
    (haddress : m.lane.address i op.addressArg (h.ref.cls == .uav && (m.world.seen s.host h.ref).isTexture) =
      .ok address) :
    (loadElement s i op h).on m =
      (.ok (loaded i id ty columns ((m.world.seen s.host h.ref).load?
          { structStride := h.structStride?, elem := ty.elem, columns := columns.toUInt32, address })),
        { m with world := m.world.fetched s.host h.ref }) := by
  have hsource : (loadSource s i op h.ref).on m =
      (.ok (m.world.seen s.host h.ref, address), { m with world := m.world.fetched s.host h.ref }) := by
    unfold loadSource World.fetched
    unfold World.seen at haddress ⊢
    rcases hcls with hcls | hcls
    · rw [hcls] at haddress
      simp only [hcls, if_true]
      rw [on_bind_lane, on_bind, on_lift, show m.lane.address i op.addressArg false = .ok address from haddress]
      rfl
    · rw [hcls, if_neg (by decide)] at haddress
      simp only [hcls, reduceCtorEq, if_false]
      rw [on_bind_uav, on_bind_lane, on_bind, on_lift]
      rw [show m.lane.address i op.addressArg (m.world.uav s.host h.ref.slot).1.isTexture = .ok address from
        haddress]
      rfl
  unfold loadElement
  rw [on_bind, on_lift, hid]
  dsimp only
  rw [on_bind, on_lift, htypes]
  dsimp only
  rw [on_bind, hsource]
  dsimp only
  unfold loaded
  cases Snapshot.load? _ _ <;> rfl

/-- The instruction of a load reports the use of the resource first. -/
theorem on_instruction_of_loadElement {source : Id} (hop : i.intrinsic? = some op)
    (hload : op = .bufferLoad ∨ op = .rawBufferLoad ∨ op = .textureLoad ∧ h.ref.cls = .uav)
    (hsource : i.argId 0 = .ok source) (hhandle : m.lane.handle s.program source = .ok (v, h))
    (hcls : h.ref.cls = .srv ∨ h.ref.cls = .uav) (hid : i.resultId = .ok id)
    (htypes : i.loadedTypes op = .ok (ty, columns))
    (haddress : m.lane.address i op.addressArg (h.ref.cls == .uav && (m.world.seen s.host h.ref).isTexture) =
      .ok address) :
    (instruction s i).on m =
      (.ok (.effect (loaded i id ty columns ((m.world.seen s.host h.ref).load?
          { structStride := h.structStride?, elem := ty.elem, columns := columns.toUInt32, address }))),
        { noted s v.name h.ref m with world := m.world.fetched s.host h.ref }) := by
  have hacc : op.accesses := by rcases hload with rfl | rfl | ⟨rfl, -⟩ <;> rfl
  have helement : element s i op h = loadElement s i op h := by rcases hload with rfl | rfl | ⟨rfl, -⟩ <;> rfl
  have htexture : ¬ (op = .textureLoad ∧ h.ref.cls = .srv) := by
    rintro ⟨rfl, hsrv⟩
    rcases hload with hop | hop | ⟨-, huav⟩
    · cases hop
    · cases hop
    · rw [hsrv] at huav
      cases huav
  -- the report changes neither what the operands are read from nor what the lanes share
  obtain ⟨accessed, changes, hnoted⟩ := noted_eq s v.name h.ref m
  have haddress' : (noted s v.name h.ref m).lane.address i op.addressArg
      (h.ref.cls == .uav && ((noted s v.name h.ref m).world.seen s.host h.ref).isTexture) = .ok address := by
    rw [hnoted]
    exact haddress
  rw [on_instruction_of_accesses hop hacc, on_onHandle hacc hsource hhandle htexture, helement,
    on_loadElement_of_ok hcls hid htypes haddress', hnoted]
  rfl

/-- The row that a load of constants gives: the words of a register, or zeros where there is none. -/
def constantsRow (b : Bindings) (name : String) (ty : Ty) (slot : Slot) (register : Nat) : Variable :=
  let width := max ty.byteSize 1
  let result := Variable.row name ty.elem (max 1 (min (16 / width) 4)).toUInt8
  match b.constantBlock? slot with
  | none => result
  | some block =>
    if register ≥ Lane.registerCount block.data then result
    else result.fill fun c => Lane.registerWord block.data register c width

section

variable {source : Id} {register : UInt32} (hresult : i.resultId = .ok id) (hsource : i.argId 0 = .ok source)
  (hhandle : m.lane.handle s.program source = .ok (v, h)) (hcls : h.ref.cls = .cBuffer)
  (hty : i.ty.structMembers?.bind List.head? = some ty) (hregister : m.lane.argWord32 i 1 = .ok register)
include hresult hsource hhandle hcls hty hregister

theorem on_loadConstants : (loadConstants s i).on m =
    (.ok (.value id (constantsRow s.bindings (i.resultName id) ty h.ref.slot register.toNat)),
      noted s v.name h.ref m) := by
  have hregister' : (noted s v.name h.ref m).lane.argWord32 i 1 = .ok register := by
    obtain ⟨accessed, changes, hnoted⟩ := noted_eq s v.name h.ref m
    rw [hnoted]
    exact hregister
  unfold loadConstants constantsRow
  rw [on_bind, on_lift, hresult]
  dsimp only
  rw [on_bind, on_lift, hsource]
  dsimp only
  rw [on_bind_handle hhandle, if_neg (not_not_intro hcls), hty]
  dsimp only
  rw [on_bind, on_argWord32, hregister']
  dsimp only
  cases s.bindings.constantBlock? h.ref.slot with
  | none => rfl
  | some block =>
      dsimp only
      split <;> rfl

/-- A load of constants gives zeros if there is no register to load. -/
theorem on_loadConstants_of_missing
    (hmissing : ∀ block, s.bindings.constantBlock? h.ref.slot = some block →
      Lane.registerCount block.data ≤ register.toNat) :
    (loadConstants s i).on m = (.ok (loaded i id ty (max 1 (min (16 / max ty.byteSize 1) 4)) none),
      noted s v.name h.ref m) := by
  rw [on_loadConstants hresult hsource hhandle hcls hty hregister, constantsRow]
  cases hblock : s.bindings.constantBlock? h.ref.slot with
  | none => rfl
  | some block =>
      dsimp only
      rw [if_pos (hmissing block hblock)]
      rfl

end

end Step

/-- A row of components that are all zero. -/
structure Variable.IsZeroRow (r : Variable) (t : ElemType) (columns : Nat) : Prop where
  elem : r.elem = t
  compCount : r.compCount = columns
  zero : ∀ c, r.get c = 0

/-- What is loaded is zero if the components that are found are. -/
theorem Step.loaded_eq {id : Id} {ty : Ty} {columns : Nat} {comps : Option Texel} (i : Instr) (hcolumns : columns ≤ 4)
    (hzero : ∀ {texel}, comps = some texel → ∀ c : Nat, texel[c]?.getD 0 = 0) :
    ∃ r, loaded i id ty columns comps = .value id r ∧ r.IsZeroRow ty.elem columns := by
  have hcount : (Variable.row (i.resultName id) ty.elem columns.toUInt8).compCount = columns :=
    Variable.compCount_row (by omega)
  cases comps with
  | none => exact ⟨_, rfl, rfl, hcount, Value.get_zero⟩
  | some texel =>
      refine ⟨_, rfl, rfl, hcount, fun c => ?_⟩
      show (Value.zero.fill _ fun c => texel[c]?.getD 0).get c = 0
      rw [Value.get_fill, hzero rfl, Value.get_zero, ite_self]

namespace Lane

/-- A lane is about to load or store at an address where nothing is found, or to load a register that no constant
    block has. The identifier, the type and the number of components of what is loaded are given. -/
inductive Degrades (l : Lane) (s : Setting) (w : World) : Option (Id × ElemType × Nat) → Prop
  | load {i : Instr} {op : Intrinsic} {h : Handle} {id : Id} {ty : Ty} {columns : Nat} {address : ElementAddress}
      (hop : op = .bufferLoad ∨ op = .rawBufferLoad ∨ op = .textureLoad ∧ h.ref.cls = .uav)
      (hnext : l.nextAccess? s.program s.analyses = some (i, op, h)) (hcls : h.ref.cls = .srv ∨ h.ref.cls = .uav)
      (hresult : i.resultId = .ok id) (hplace : l.hasPlace id) (htypes : i.loadedTypes op = .ok (ty, columns))
      (haddress : l.address i op.addressArg (h.ref.cls == .uav && (w.seen s.host h.ref).isTexture) = .ok address)
      (hmiss : Snapshot.NotFound s.host w h.ref
        { structStride := h.structStride?, elem := ty.elem, columns := columns.toUInt32, address }) :
      Degrades l s w (some (id, ty.elem, columns))
  | store {i : Instr} {op : Intrinsic} {h : Handle} {values : Vector (Option Variable) 4} {v : Variable}
      {address : ElementAddress} (hop : op = .bufferStore ∨ op = .rawBufferStore ∨ op = .textureStore)
      (hnext : l.nextAccess? s.program s.analyses = some (i, op, h)) (hcls : h.ref.cls = .uav)
      (hvalues : l.storedValues i op.valueArg = .ok values) (hfirst : values.toList.findSome? id = some v)
      (haddress : l.address i op.addressArg (w.seen s.host h.ref).isTexture = .ok address)
      (hmiss : Snapshot.NotFound s.host w h.ref
        { structStride := h.structStride?, elem := v.elem, columns := (columnsOf values).toUInt32, address }) :
      Degrades l s w none
  | constants {a : FunctionAnalysis} {i : Instr} {h : Handle} {id source : Id} {v : Variable} {ty : Ty}
      {register : UInt32} (hfin : ¬ l.isFinished) (hnext : l.nextInstr s.program s.analyses = .ok (a, i))
      (hop : i.intrinsic? = some .cBufferLoadLegacy) (hresult : i.resultId = .ok id) (hplace : l.hasPlace id)
      (hsource : i.argId 0 = .ok source) (hhandle : l.handle s.program source = .ok (v, h))
      (hcls : h.ref.cls = .cBuffer) (hty : i.ty.structMembers?.bind List.head? = some ty)
      (hregister : l.argWord32 i 1 = .ok register)
      (hmissing : ∀ block, s.bindings.constantBlock? h.ref.slot = some block →
        registerCount block.data ≤ register.toNat) :
      Degrades l s w (some (id, ty.elem, max 1 (min (16 / max ty.byteSize 1) 4)))

variable {l : Lane} {s : Setting} {w : World} {i : Instr} {op : Intrinsic} {h : Handle} {id : Id} {ty : Ty}
  {columns : Nat}

/-- The step of an instruction that loads zeros. -/
theorem step_of_loaded {a : FunctionAnalysis} {m : Machine} {comps : Option Texel} (hfin : ¬ l.isFinished)
    (hnext : l.nextInstr s.program s.analyses = .ok (a, i)) (hflush : ¬ i.isFlushing) (hcolumns : columns ≤ 4)
    (hon : (Step.instruction s i).on { lane := l.advanced, world := w } =
      (.ok (.effect (Step.loaded i id ty columns comps)), m))
    (hzero : ∀ {texel}, comps = some texel → ∀ c : Nat, texel[c]?.getD 0 = 0) (hplace : m.lane.hasPlace id) :
    (∃ state, (l.step s w).result = .ok state) ∧ (l.step s w).world = m.world ∧
      ∃ r, (l.step s w).lane.value? id = some r ∧ r.IsZeroRow ty.elem columns := by
  obtain ⟨r, hr, hrow⟩ := Step.loaded_eq i hcolumns hzero
  rw [hr] at hon
  obtain ⟨hok, hworld, hvalue⟩ := step_of_effect hfin hnext hon (by rintro _ _ _ ⟨⟩; exact hplace)
  refine ⟨hok, hworld, r, ?_, hrow⟩
  rw [hvalue _ _ _ rfl, Instr.assigned, if_neg hflush]

/-- An access that finds nothing succeeds. What it loads is zero in every component, whatever the type and the number
    of components are, and what it stores is dropped: no snapshot that is cached changes, and one that is fetched is
    what the host has answered. -/
theorem degraded_reads_zero {result : Option (Id × ElemType × Nat)} (h : l.Degrades s w result) :
    (∃ state, (l.step s w).result = .ok state) ∧ w.Caches s.host (l.step s w).world ∧
      ∀ {id t columns}, result = some (id, t, columns) →
        ∃ r, (l.step s w).lane.value? id = some r ∧ r.IsZeroRow t columns := by
  cases h with
  | @load i op h id ty columns address hop hnext hcls hresult hplace htypes haddress hmiss =>
      obtain ⟨hfin, a, source, v, hinstr, hcall, hacc, hsource, hhandle⟩ := nextAccess?_eq_some_iff.1 hnext
      obtain ⟨accessed, changes, hnoted⟩ := Step.noted_eq s v.name h.ref { lane := l.advanced, world := w }
      have hon := Step.on_instruction_of_loadElement (m := { lane := l.advanced, world := w }) hcall hop hsource
        hhandle hcls hresult htypes haddress
      rw [hnoted] at hon
      obtain ⟨hok, hworld, hvalue⟩ := step_of_loaded hfin hinstr (Instr.not_isFlushing_of_accesses hcall hacc)
        (le_of_loadedTypes htypes) hon (fun hload => hmiss.misses.load hload) hplace
      refine ⟨hok, ?_, by rintro _ _ _ ⟨⟩; exact hvalue⟩
      rw [hworld]
      exact World.caches_fetched ..
  | @store i op h values v address hop hnext hcls hvalues hfirst haddress hmiss =>
      rw [World.seen_of_uav hcls] at haddress
      have hmisses := hmiss.misses
      rw [World.seen_of_uav hcls] at hmisses
      have hkept := hmisses.store values
      unfold columnsOf at hkept
      have haccess := access_of_store (h := h) hop hvalues hfirst haddress
      rw [hkept] at haccess
      obtain ⟨hok, hworld, -⟩ := step_of_access hnext hcls haccess (by rintro _ _ _ ⟨⟩)
      refine ⟨hok, ?_, nofun⟩
      -- what is put back is the snapshot that was fetched
      rw [hworld, World.setUav_eq_self (World.get?_uavs_uav ..)]
      have hcaches := World.caches_fetched s.host w h.ref
      unfold World.fetched at hcaches
      rwa [if_neg (by rw [hcls]; decide)] at hcaches
  | @constants a i h id source v ty register hfin hnext hop hresult hplace hsource hhandle hcls hty hregister
      hmissing =>
      obtain ⟨accessed, changes, hnoted⟩ := Step.noted_eq s v.name h.ref { lane := l.advanced, world := w }
      have hon : (Step.intrinsic s i .cBufferLoadLegacy).on { lane := l.advanced, world := w } = _ :=
        Step.on_loadConstants_of_missing hresult hsource hhandle hcls hty hregister hmissing
      rw [hnoted] at hon
      obtain ⟨hok, hworld, hvalue⟩ := step_of_loaded hfin hnext (Instr.not_isFlushing_of_intrinsic hop rfl)
        (by omega) (Step.on_instruction_of_intrinsic hop hon) nofun hplace
      refine ⟨hok, ?_, by rintro _ _ _ ⟨⟩; exact hvalue⟩
      rw [hworld]
      exact .refl s.host w

/-- A view of the first four of twelve bytes, as two-byte components see it. -/
def firstFourOfTwelve : Snapshot :=
  { info := { numElements := 2, isByteBuffer := true }, data := List.replicate 12 7 }

/-- The accesses of `storeThenLoad` are to bytes behind this view. -/
theorem firstFourOfTwelve_misses (columns : UInt32) : firstFourOfTwelve.Misses (shortsAtFour columns) := by
  refine .byteIndex rfl rfl fun f hf => ?_
  obtain rfl : shortsFormat columns = f := Option.some.inj hf
  exact (by decide : 2 * min 2 4 ≤ 4 / 4 * 4)

/-- A host that has this view. -/
def firstFourHost : Host := .withUav firstFourOfTwelve

set_option synthInstance.maxSize 512 in
/-- The lane of `storeThenLoad` drops what it would store behind a view that is fetched for it, and loads zeros from
    there. -/
theorem storeThenLoad_finds_nothing :
    ∃ (s₀ s : Session) (l : Lane) (r : Variable),
      Session.new storeThenLoad {} {} [{}] 0 {} = .ok s₀ ∧
      s₀.start.session.advance firstFourHost 1 = .ok s ∧ s.lanes[0]? = some l ∧
      let stored := l.step (s.setting firstFourHost 0) s.world
      let loaded := stored.lane.step (s.setting firstFourHost 0) stored.world
      loaded.world.uavs.get? (.ofRegister 0 0) = some firstFourOfTwelve ∧
        loaded.lane.value? ⟨1⟩ = some r ∧ r.IsZeroRow .sShort 3 := by
  have h : ∃ s₀, Session.new storeThenLoad {} {} [{}] 0 {} = .ok s₀ ∧
      ∃ states, s₀.start.result = .ok states ∧ ∃ s, s₀.start.session.advance firstFourHost 1 = .ok s ∧
      (s.world.uavs.get? (.ofRegister 0 0)).isNone ∧ ∃ l, s.lanes[0]? = some l ∧
      ((l.step (s.setting firstFourHost 0) s.world).world.uavs.get? (.ofRegister 0 0)).isSome ∧
      (∃ x, l.nextAccess? s.program s.analyses = some x ∧ l.AtFour .rawBufferStore x ∧
        ∃ values, l.storedValues x.1 3 = .ok values ∧ (columnsOf values = 2 ∧
          ∃ v, values.toList.findSome? id = some v ∧ v.elem = .sShort)) ∧
      ∃ l', some (l.step (s.setting firstFourHost 0) s.world).lane = some l' ∧
      ∃ x, l'.nextAccess? s.program s.analyses = some x ∧ l'.AtFour .rawBufferLoad x ∧
        (∃ y, x.1.loadedTypes x.2.1 = .ok y ∧ (y.1.elem = .sShort ∧ y.2 = 3)) ∧ x.1.result = some ⟨1⟩ ∧
        l'.hasPlace ⟨1⟩ := by
    decide +kernel
  obtain ⟨s₀, hnew, _, -, s, hs, hnone, l, hl, hfetched,
    ⟨⟨i, op, hd⟩, hnext, ⟨hop, hcls, hslot, hstride, _, haddress, rfl⟩, values, hvalues, hcolumns, v, hfirst, helem⟩,
    l', hl', ⟨i', op', hd'⟩, hnext', ⟨hop', hcls', hslot', hstride', _, haddress', rfl⟩,
    ⟨⟨ty, m⟩, htypes, helem', rfl⟩, hresult, hplace⟩ := h
  cases hl'
  obtain ⟨t, ht⟩ : ∃ t, s.setting firstFourHost 0 = t := ⟨_, rfl⟩
  rw [show s.program = t.program from ht ▸ rfl, show s.analyses = t.analyses from ht ▸ rfl, ht] at hnext'
  rw [show s.program = t.program from ht ▸ rfl, show s.analyses = t.analyses from ht ▸ rfl] at hnext
  subst hop hop'
  have hhost : t.host = firstFourHost := ht ▸ rfl
  -- the store fetches the view, and leaves it
  have hnone := Option.isNone_iff_eq_none.1 hnone
  have hfound : s.world.seen t.host hd.ref = firstFourOfTwelve := by
    rw [World.seen_eq, World.bound?, if_neg (by rw [hcls]; decide), hslot, hnone, hhost]
    rfl
  have hstore : l.Degrades t s.world none := by
    refine .store (.inr (.inl rfl)) hnext hcls hvalues hfirst (by rw [hfound]; exact haddress) (.inr ?_)
    rw [hfound, hstride, helem, hcolumns]
    exact firstFourOfTwelve_misses 2
  obtain ⟨-, hcaches, -⟩ := degraded_reads_zero hstore
  obtain ⟨view, hview⟩ := Option.isSome_iff_exists.1 hfetched
  have hcached : (l.step t s.world).world.uavs.get? (.ofRegister 0 0) = some firstFourOfTwelve := by
    rw [ht] at hview
    rw [hview, hcaches.uavs.added hnone hview, hhost]
    rfl
  -- the load sees it then
  have hfound' : (l.step t s.world).world.seen t.host hd'.ref = firstFourOfTwelve := by
    rw [World.seen_of_uav hcls', hslot', World.uav_of_cached hcached]
  have hload : (l.step t s.world).lane.Degrades t (l.step t s.world).world (some (⟨1⟩, ty.elem, 3)) := by
    refine .load (.inr (.inl rfl)) hnext' (.inr hcls') (by rw [Instr.resultId, hresult]) (ht ▸ hplace) htypes
      (by rw [hfound', hcls', ← ht]; exact haddress') (.inr ?_)
    rw [hfound', hstride', helem']
    exact firstFourOfTwelve_misses 3
  obtain ⟨-, hcaches', hvalue⟩ := degraded_reads_zero hload
  obtain ⟨r, hr, hrow⟩ := hvalue rfl
  subst ht
  exact ⟨s₀, s, l, r, hnew, hs, hl, hcaches'.uavs.kept hcached, hr, helem' ▸ hrow⟩

end Lane

end Lockstep
