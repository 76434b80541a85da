import Lockstep.Proofs.Lane.Snapshots

set_option autoImplicit false

/-! # Accesses to read-write resources

A load, a store or an atomic update through a handle of a read-write resource is a function of the lane and
of the snapshot of the handle's slot: it gives an effect and the snapshot that it leaves (`Lane.access`). The
step that executes it does just that to the snapshot that is cached or fetched (`Step.on_element_iff`). -/

namespace Lockstep

namespace Table

variable {κ ν : Type} [DecidableEq κ]

theorem put_eq_self {ps : List (κ × ν)} {k : κ} {v : ν} (h : lookup k ps = some v) : put k v ps = ps := by
  induction ps with
  | nil => cases h
  | cons p rest ih =>
      obtain ⟨k', v'⟩ := p
      unfold lookup at h
      unfold put
      split at h
      · next heq =>
          cases h
          rw [if_pos heq, heq]
      · next hne => rw [if_neg hne, ih h]

/-- To give a key the value that it has changes nothing. -/
theorem insert_eq_self {t : Table κ ν} {k : κ} {v : ν} (h : t.get? k = some v) : t.insert k v = t :=
  congrArg Table.mk (put_eq_self h)

end Table

namespace World

/-- A read-write resource is cached once it has been touched. -/
theorem get?_uavs_uav (host : Host) (w : World) (slot : Slot) :
    (w.uav host slot).2.uavs.get? slot = some (w.uav host slot).1 := by
  unfold uav
  split
  · next h => exact h
  · exact Table.get?_insert_self ..

theorem uav_of_cached {host : Host} {w : World} {slot : Slot} {snapshot : Snapshot}
    (h : w.uavs.get? slot = some snapshot) : w.uav host slot = (snapshot, w) := by
  unfold uav
  rw [h]

theorem setUav_eq_self {w : World} {slot : Slot} {snapshot : Snapshot}
    (h : w.uavs.get? slot = some snapshot) : w.setUav slot snapshot = w := by
  unfold setUav
  rw [Table.insert_eq_self h]

end World

namespace Lane

/-- What a load gives that sees a snapshot. -/
def loadFrom (l : Lane) (i : Instr) (op : Intrinsic) (h : Handle) (seen : Snapshot) :
    Except Fault (Effect × Snapshot) := do
  let id ← i.resultId
  let (ty, columns) ← i.loadedTypes op
  let result := Variable.row (i.resultName id) ty.elem columns.toUInt8
  let address ← l.address i op.addressArg seen.isTexture
  let access : ViewAccess :=
    { structStride := h.structStride?, elem := ty.elem, columns := columns.toUInt32, address }
  match seen.load? access with
  | some comps => return (.value id (result.fill fun c => comps[c]?.getD 0), seen)
  | none => return (.value id result, seen)

/-- A load leaves the snapshot that it sees. -/
theorem left_of_loadFrom {l : Lane} {i : Instr} {op : Intrinsic} {h : Handle} {seen left : Snapshot} {e : Effect}
    (hok : l.loadFrom i op h seen = .ok (e, left)) : left = seen := by
  obtain ⟨_, -, h₁⟩ := ok_of_bind hok
  obtain ⟨_, -, h₂⟩ := ok_of_bind h₁
  obtain ⟨_, -, h₃⟩ := ok_of_bind h₂
  dsimp only at h₃
  split at h₃ <;> cases h₃ <;> rfl

/-- What a store makes of a snapshot. -/
def storeInto (l : Lane) (i : Instr) (op : Intrinsic) (h : Handle) (seen : Snapshot) :
    Except Fault (Effect × Snapshot) := do
  let values ← l.storedValues i op.valueArg
  match values.toList.findSome? id with
  | none => throw (.program (.noValue op))
  | some v =>
    let columns := 4 - (values.toList.reverse.takeWhile Option.isNone).length
    let address ← l.address i op.addressArg seen.isTexture
    let access : ViewAccess :=
      { structStride := h.structStride?, elem := v.elem, columns := columns.toUInt32, address }
    return (.proceed, (seen.store? access values).getD seen)

/-- The function by which an atomic changes a component. -/
def atomicChange (l : Lane) (i : Instr) (op : Intrinsic) (bits : Nat) : Except Fault (UInt64 → UInt64) := do
  if op = .atomicBinOp then
    let number := (← l.argWord32 i 1).toNat
    match AtomicKind.ofNumber? number with
    | none => throw (.program (.unknownAtomic number))
    | some kind =>
      let operand := (← l.arg i 5).get 0
      return fun old => kind.combine bits old operand
  else
    let replacement := (← l.arg i 5).get 0
    let expected := (← l.arg i 4).get 0
    return fun old => if old = expected then replacement else old

/-- What an atomic update makes of a snapshot. -/
def updateIn (l : Lane) (i : Instr) (op : Intrinsic) (h : Handle) (seen : Snapshot) :
    Except Fault (Effect × Snapshot) := do
  let (id, result) ← i.blank
  let change ← l.atomicChange i op result.elem.bits
  let address ← l.address i op.addressArg seen.isTexture
  let access : ViewAccess :=
    { structStride := h.structStride?, elem := result.elem, columns := 1, address }
  match seen.update? access change with
  | some (old, updated) => return (.value id (result.set 0 old), updated)
  | none => return (.value id result, seen)

/-- What an access to a read-write resource gives that sees a snapshot: its effect, and the snapshot that it
    leaves. -/
def access (l : Lane) (i : Instr) (op : Intrinsic) (h : Handle) (seen : Snapshot) :
    Except Fault (Effect × Snapshot) :=
  match op with
  | .bufferStore | .rawBufferStore | .textureStore => l.storeInto i op h seen
  | .atomicBinOp | .atomicCompareExchange => l.updateIn i op h seen
  | _ => l.loadFrom i op h seen

/-- A store replaces components by the values that are there, up to the last of them. -/
theorem access_of_store {l : Lane} {i : Instr} {op : Intrinsic} {h : Handle} {seen : Snapshot} {v : Variable}
    {values : Vector (Option Variable) 4} {address : ElementAddress}
    (hop : op = .bufferStore ∨ op = .rawBufferStore ∨ op = .textureStore)
    (hvalues : l.storedValues i op.valueArg = .ok values) (hfirst : values.toList.findSome? id = some v)
    (haddress : l.address i op.addressArg seen.isTexture = .ok address) :
    l.access i op h seen = .ok (.proceed, (seen.store?
      { structStride := h.structStride?, elem := v.elem
        columns := (4 - (values.toList.reverse.takeWhile Option.isNone).length).toUInt32, address }
      values).getD seen) := by
  have hstore : l.access i op h seen = l.storeInto i op h seen := by rcases hop with rfl | rfl | rfl <;> rfl
  rw [hstore, storeInto, hvalues]
  dsimp only [bind, Except.bind]
  rw [hfirst]
  dsimp only
  rw [haddress]
  rfl

end Lane

namespace Step

variable {s : Setting} {i : Instr} {op : Intrinsic} {h : Handle} {m m' : Machine} {e : Effect}

/-- What an access makes of a machine whose world has the snapshot at hand. -/
def Accesses (s : Setting) (m : Machine) (slot : Slot) (x : Snapshot → Except Fault (Effect × Snapshot))
    (e : Effect) (m' : Machine) : Prop :=
  ∃ left, x (m.world.uav s.host slot).1 = .ok (e, left) ∧
    m' = { m with world := (m.world.uav s.host slot).2.setUav slot left }

theorem bind_iff {α β : Type} {x : Except Fault α} {f : α → Except Fault β} {b : β} :
    x >>= f = .ok b ↔ ∃ a, x = .ok a ∧ f a = .ok b := by
  refine ⟨ok_of_bind, ?_⟩
  rintro ⟨a, rfl, h⟩
  exact h

section

variable {α β : Type} {f : α → Step β} {b : β} {slot : Slot}

theorem on_bind_iff {x : Step α} :
    (x >>= f).on m = (.ok b, m') ↔ ∃ a m₁, x.on m = (.ok a, m₁) ∧ (f a).on m₁ = (.ok b, m') := by
  refine ⟨ok_of_on_bind, ?_⟩
  rintro ⟨a, m₁, hx, hf⟩
  rw [on_bind, hx]
  exact hf

/-- To go on after what only reads the machine. -/
theorem on_bind_iff_of_reads {x : Step α} {y : Except Fault α} (h : x.on m = (y, m)) :
    (x >>= f).on m = (.ok b, m') ↔ ∃ a, y = .ok a ∧ (f a).on m = (.ok b, m') := by
  rw [on_bind, h]
  cases y <;> simp

theorem on_bind_lift_iff {x : Except Fault α} :
    (liftM x >>= f : Step β).on m = (.ok b, m') ↔ ∃ a, x = .ok a ∧ (f a).on m = (.ok b, m') :=
  on_bind_iff_of_reads (on_lift ..)

theorem on_bind_lane {f : Lane → Step β} : (lane >>= f).on m = (f m.lane).on m := rfl

theorem on_bind_uav {f : Snapshot → Step β} : (uav s slot >>= f).on m =
    (f (m.world.uav s.host slot).1).on { m with world := (m.world.uav s.host slot).2 } := rfl

theorem on_bind_setUav {f : Unit → Step β} {snapshot : Snapshot} : (setUav slot snapshot >>= f).on m =
    (f ()).on { m with world := m.world.setUav slot snapshot } := rfl

theorem on_arg {index : Nat} : (arg i index).on m = (m.lane.arg i index, m) := on_lift ..

theorem on_argWord32 {index : Nat} : (argWord32 i index).on m = (m.lane.argWord32 i index, m) := on_lift ..

theorem on_atomicChange {bits : Nat} :
    (atomicChange i op bits).on m = (m.lane.atomicChange i op bits, m) := by
  unfold atomicChange Lane.atomicChange
  split
  · rw [on_bind, on_argWord32]
    cases m.lane.argWord32 i 1 with
    | error fault => rfl
    | ok number =>
        dsimp only [bind, Except.bind]
        cases AtomicKind.ofNumber? number.toNat with
        | none => rfl
        | some kind =>
            show (arg i 5 >>= _).on m = _
            rw [on_bind, on_arg]
            cases m.lane.arg i 5 <;> rfl
  · rw [on_bind, on_arg]
    cases m.lane.arg i 5 with
    | error fault => rfl
    | ok replacement =>
        dsimp only
        rw [on_bind, on_arg]
        cases m.lane.arg i 4 <;> rfl

/-- The source of a load from a read-write resource. -/
theorem on_bind_loadSource_iff {ref : ResourceRef} (hcls : ref.cls = .uav)
    {f : Snapshot × ElementAddress → Step β} : (loadSource s i op ref >>= f).on m = (.ok b, m') ↔
      ∃ address, m.lane.address i op.addressArg (m.world.uav s.host ref.slot).1.isTexture = .ok address ∧
        (f ((m.world.uav s.host ref.slot).1, address)).on
          { m with world := (m.world.uav s.host ref.slot).2 } = (.ok b, m') := by
  unfold loadSource
  simp only [hcls, bind_assoc, pure_bind, on_bind_uav, on_bind_lane, on_bind_lift_iff]

end

section

variable {slot : Slot}

/-- An access that first asks for something else. -/
theorem accesses_bind_iff {α : Type} {x : Snapshot → Except Fault α}
    {f : Snapshot → α → Except Fault (Effect × Snapshot)} :
    Accesses s m slot (fun seen => x seen >>= f seen) e m' ↔
      ∃ a, x (m.world.uav s.host slot).1 = .ok a ∧ Accesses s m slot (fun seen => f seen a) e m' := by
  unfold Accesses
  simp only [bind_iff]
  constructor
  · rintro ⟨left, ⟨a, ha, hleft⟩, hm⟩
    exact ⟨a, ha, left, hleft, hm⟩
  · rintro ⟨a, ha, left, hleft, hm⟩
    exact ⟨left, ⟨a, ha, hleft⟩, hm⟩

/-- An access that has nothing more to ask for. -/
theorem accesses_iff_of_eq {x : Snapshot → Except Fault (Effect × Snapshot)} {e' : Effect} {left : Snapshot}
    (h : x (m.world.uav s.host slot).1 = .ok (e', left)) : Accesses s m slot x e m' ↔
      (Except.ok e', { m with world := (m.world.uav s.host slot).2.setUav slot left }) =
        ((.ok e, m') : Except Fault Effect × Machine) := by
  unfold Accesses
  rw [h]
  simp only [Except.ok.injEq, Prod.mk.injEq]
  constructor
  · rintro ⟨_, ⟨rfl, rfl⟩, rfl⟩
    exact ⟨rfl, rfl⟩
  · rintro ⟨rfl, rfl⟩
    exact ⟨left, ⟨rfl, rfl⟩, rfl⟩

/-- Such an access may leave the snapshot as it is. -/
theorem accesses_iff_of_kept {x : Snapshot → Except Fault (Effect × Snapshot)} {e' : Effect}
    (h : x (m.world.uav s.host slot).1 = .ok (e', (m.world.uav s.host slot).1)) : Accesses s m slot x e m' ↔
      (Except.ok e', { m with world := (m.world.uav s.host slot).2 }) =
        ((.ok e, m') : Except Fault Effect × Machine) := by
  rw [accesses_iff_of_eq h, World.setUav_eq_self (World.get?_uavs_uav ..)]

end

/-- A load does to the world what it takes to have the snapshot at hand. -/
theorem on_loadElement_iff (hcls : h.ref.cls = .uav) : (loadElement s i op h).on m = (.ok e, m') ↔
    Accesses s m h.ref.slot (m.lane.loadFrom i op h) e m' := by
  unfold loadElement Lane.loadFrom
  simp only [on_bind_lift_iff, on_bind_loadSource_iff hcls, accesses_bind_iff]
  refine exists_congr fun id => and_congr_right fun _ => exists_congr fun types =>
    and_congr_right fun _ => exists_congr fun address => and_congr_right fun _ => ?_
  generalize hload : Snapshot.load? _ _ = loaded
  cases loaded with
  | some comps => exact (accesses_iff_of_kept (by rw [hload]; rfl)).symm
  | none => exact (accesses_iff_of_kept (by rw [hload]; rfl)).symm

/-- A store replaces the snapshot by what it makes of it. -/
theorem on_storeElement_iff (hcls : h.ref.cls = .uav) : (storeElement s i op h).on m = (.ok e, m') ↔
    Accesses s m h.ref.slot (m.lane.storeInto i op h) e m' := by
  unfold storeElement Lane.storeInto
  rw [if_neg (not_not_intro hcls)]
  simp only [on_bind_lane, on_bind_lift_iff, accesses_bind_iff]
  refine exists_congr fun values => and_congr_right fun _ => ?_
  cases values.toList.findSome? id with
  | none =>
      refine iff_of_false (fun h => by cases h) ?_
      rintro ⟨_, h, -⟩
      cases h
  | some v =>
      simp only [on_bind_uav, on_bind_lane, on_bind_lift_iff, accesses_bind_iff]
      refine exists_congr fun address => and_congr_right fun _ => ?_
      generalize hstore : Snapshot.store? _ _ _ = stored
      cases stored with
      | some stored =>
          rw [on_bind_setUav]
          refine Iff.symm (accesses_iff_of_eq ?_)
          rw [hstore]
          rfl
      | none => exact (accesses_iff_of_kept (by rw [hstore]; rfl)).symm

/-- An atomic update replaces the snapshot by what it makes of it. -/
theorem on_updateElement_iff (hcls : h.ref.cls = .uav) : (updateElement s i op h).on m = (.ok e, m') ↔
    Accesses s m h.ref.slot (m.lane.updateIn i op h) e m' := by
  unfold updateElement Lane.updateIn
  rw [if_neg (not_not_intro hcls)]
  simp only [on_bind_lane, on_bind_lift_iff, on_bind_iff_of_reads on_atomicChange, on_bind_uav, accesses_bind_iff]
  refine exists_congr fun blank => and_congr_right fun _ => exists_congr fun change =>
    and_congr_right fun _ => exists_congr fun address => and_congr_right fun _ => ?_
  generalize hupdate : Snapshot.update? _ _ _ = updated
  cases updated with
  | some updated =>
      rw [on_bind_setUav]
      refine Iff.symm (accesses_iff_of_eq ?_)
      rw [hupdate]
      rfl
  | none => exact (accesses_iff_of_kept (by rw [hupdate]; rfl)).symm

/-- An access through a handle of a read-write resource does to the world what its function says. -/
theorem on_element_iff (hcls : h.ref.cls = .uav) : (element s i op h).on m = (.ok e, m') ↔
    Accesses s m h.ref.slot (m.lane.access i op h) e m' := by
  unfold element
  split
  · exact on_storeElement_iff hcls
  · exact on_storeElement_iff hcls
  · exact on_storeElement_iff hcls
  · exact on_updateElement_iff hcls
  · exact on_updateElement_iff hcls
  · next h₁ h₂ h₃ h₄ h₅ =>
      have hload : m.lane.access i op h = m.lane.loadFrom i op h := by
        funext seen
        exact Lane.access.eq_6 m.lane i op h seen h₁ h₂ h₃ h₄ h₅
      rw [hload]
      exact on_loadElement_iff hcls

/-! ## Instructions -/

/-- The machine in which the use of a resource has been reported. -/
def noted (s : Setting) (name : String) (ref : ResourceRef) (m : Machine) : Machine :=
  ((noteUse s name ref).on m).2

theorem noted_eq (s : Setting) (name : String) (ref : ResourceRef) (m : Machine) :
    ∃ accessed changes, noted s name ref m = { m with lane := { m.lane with accessed }, changes } := by
  obtain ⟨accessed, changes, h⟩ := exists_on_noteUse s name ref m
  exact ⟨accessed, changes, congrArg Prod.snd h⟩

theorem on_noteUse (s : Setting) (name : String) (ref : ResourceRef) (m : Machine) :
    (noteUse s name ref).on m = (.ok (), noted s name ref m) := by
  obtain ⟨_, _, h⟩ := exists_on_noteUse s name ref m
  refine Prod.ext ?_ rfl
  rw [h]

theorem on_bind_noteUse {β : Type} {f : Unit → Step β} {name : String} {ref : ResourceRef} :
    (noteUse s name ref >>= f).on m = (f ()).on (noted s name ref m) := by
  rw [on_bind, on_noteUse]

/-- To look up the handle that an identifier holds reports the use of its resource. -/
theorem on_bind_handle {β : Type} {f : Handle → Step β} {id : Id} {v : Variable}
    (hhandle : m.lane.handle s.program id = .ok (v, h)) :
    (handle s id >>= f).on m = (f h).on (noted s v.name h.ref m) := by
  unfold handle
  simp only [bind_assoc, pure_bind, on_bind_lane]
  rw [on_bind, on_lift, hhandle]
  exact on_bind_noteUse

/-- What looks up a handle first succeeds only if the handle is there. -/
theorem on_bind_handle_iff {β : Type} {f : Handle → Step β} {b : β} {id : Id} :
    (handle s id >>= f).on m = (.ok b, m') ↔ ∃ v h, m.lane.handle s.program id = .ok (v, h) ∧
      (f h).on (noted s v.name h.ref m) = (.ok b, m') := by
  unfold handle
  simp only [bind_assoc, pure_bind, on_bind_lane, on_bind_lift_iff, on_bind_noteUse, Prod.exists]

/-- An access works on the resource of its handle, but a texture is loaded through the host when it is
    read-only. -/
theorem onHandle_of_accesses (hacc : op.accesses) : onHandle s i op = (do
    let h ← handle s (← i.argId 0)
    if op = .textureLoad ∧ h.ref.cls = .srv then texture s i op h else element s i op h) := by
  unfold onHandle element
  cases op <;> first | (cases hacc; done) | simp

/-- An access reports the use of its handle's resource, and then works on that. -/
theorem on_onHandle {id : Id} {v : Variable} (hacc : op.accesses) (hid : i.argId 0 = .ok id)
    (hhandle : m.lane.handle s.program id = .ok (v, h)) (htexture : ¬ (op = .textureLoad ∧ h.ref.cls = .srv)) :
    (onHandle s i op).on m = (element s i op h).on (noted s v.name h.ref m) := by
  rw [onHandle_of_accesses hacc, on_bind, on_lift, hid]
  dsimp only
  rw [on_bind_handle hhandle, if_neg htexture]

/-- An access whose handle is for a read-write resource reports the use and does what its function says. -/
theorem on_access_iff {id : Id} {v : Variable} {o : Outcome} (hop : i.intrinsic? = some op)
    (hacc : op.accesses) (hid : i.argId 0 = .ok id) (hhandle : m.lane.handle s.program id = .ok (v, h))
    (hcls : h.ref.cls = .uav) : (instruction s i).on m = (.ok o, m') ↔
      ∃ e, o = .effect e ∧
        Accesses s (noted s v.name h.ref m) h.ref.slot (m.lane.access i op h) e m' := by
  have haccess : (noted s v.name h.ref m).lane.access i op h = m.lane.access i op h := by
    obtain ⟨accessed, changes, hm⟩ := noted_eq s v.name h.ref m
    rw [hm]
    rfl
  rw [instruction_ok_of_accesses hop hacc]
  refine exists_congr fun e => and_congr_right fun _ => ?_
  rw [← haccess, ← on_element_iff hcls, on_onHandle hacc hid hhandle (by simp [hcls])]

theorem exists_on_assign {id : Id} (hid : m.lane.hasPlace id) (v : Variable) (report : Bool) :
    ∃ m', (assign i id v report).on m = (.ok (), m') := by
  unfold assign
  rw [on_bind]
  show ∃ m', Step.on (if !m.lane.hasPlace id then _ else _) m = (.ok (), m')
  rw [if_neg (by simp [hid])]
  cases report with
  | false => exact ⟨_, rfl⟩
  | true => exact ⟨_, on_bind_iff.2 ⟨(), _, on_announce .., rfl⟩⟩

/-- What an effect asks is done, if there is a place for what it assigns. -/
theorem conclude_effect {a : FunctionAnalysis}
    (he : ∀ id v report, e = .assign id v report → m.lane.hasPlace id) :
    ∃ m', (conclude a i (.effect e)).on m = (.ok (), m') ∧
      ∀ id v report, e = .assign id v report → m'.lane.value? id = some (i.assigned v) := by
  cases e with
  | proceed => exact ⟨_, on_retire .., nofun⟩
  | kill => exact ⟨_, rfl, nofun⟩
  | assign id v report =>
      have hplace : (m.lane.retire a (some id)).hasPlace id := by
        have hid := he id v report rfl
        simpa [Lane.hasPlace, Lane.retire] using hid
      have hvalue : (((m.lane.retire a (some id)).assign id (i.assigned v)).bringIntoScope id).value? id =
          some (i.assigned v) := by
        rw [Lane.value_bringIntoScope, Lane.value_assign hplace, Function.update_self]
      obtain ⟨m', hm'⟩ : ∃ m', (conclude a i (.effect (.assign id v report))).on m = (.ok (), m') := by
        obtain ⟨m', hm'⟩ := exists_on_assign (i := i) (m := { m with
          lane := m.lane.retire a (some id)
          changes := m.changes ++ ((m.lane.retiring a (some id)).map fun id =>
            Change.removed ((m.lane.value? id).getD .empty)).toArray }) hplace v report
        exact ⟨m', on_bind_iff.2 ⟨(), _, on_retire .., hm'⟩⟩
      refine ⟨m', hm', ?_⟩
      rintro _ _ _ ⟨⟩
      obtain ⟨_, m₁, hretire, hassign⟩ := ok_of_on_bind hm'
      cases (on_retire ..).symm.trans hretire
      obtain ⟨-, _, rfl⟩ := assign_ok hassign
      exact hvalue

end Step

namespace Lane

/-- The access to an element of a resource that a lane makes next, with the handle of the resource. -/
def nextAccess? (l : Lane) (p : Program) (as : Analyses) : Option (Instr × Intrinsic × Handle) :=
  if l.isFinished then none
  else do
    let (_, i) ← (l.nextInstr p as).toOption
    let op ← i.intrinsic?.filter Intrinsic.accesses
    let id ← (i.argId 0).toOption
    let (_, h) ← (l.handle p id).toOption
    return (i, op, h)

theorem toOption_eq_some_iff {α : Type} {x : Except Fault α} {r : α} : x.toOption = some r ↔ x = .ok r := by
  cases x <;> simp [Except.toOption]

section

variable {l : Lane} {p : Program} {as : Analyses} {i : Instr} {op : Intrinsic} {h : Handle} {s : Setting}
  {w : World} {state : StepState}

theorem nextAccess?_eq_some_iff : l.nextAccess? p as = some (i, op, h) ↔
    ¬ l.isFinished ∧ ∃ a id v, l.nextInstr p as = .ok (a, i) ∧ i.intrinsic? = some op ∧ op.accesses ∧
      i.argId 0 = .ok id ∧ l.handle p id = .ok (v, h) := by
  unfold nextAccess?
  split
  · next hfin => simp [hfin]
  · next hfin =>
      simp only [Option.bind_eq_bind, Option.bind_eq_some_iff, toOption_eq_some_iff, Option.filter_eq_some_iff,
        Prod.exists, Option.pure_def, Option.some.injEq, Prod.mk.injEq]
      constructor
      · rintro ⟨a, _, hnext, _, ⟨hop, hacc⟩, id, hid, v, _, hhandle, rfl, rfl, rfl⟩
        exact ⟨hfin, a, id, v, hnext, hop, hacc, hid, hhandle⟩
      · rintro ⟨-, a, id, v, hnext, hop, hacc, hid, hhandle⟩
        exact ⟨a, i, hnext, op, ⟨hop, hacc⟩, id, hid, v, h, hhandle, rfl, rfl, rfl⟩

theorem world_step_of_isFinished (h : l.isFinished) : (l.step s w).world = w := by
  unfold step
  rw [if_pos h]

/-- A step, whether it succeeds or not, leaves the shared state that its instruction leaves. -/
theorem world_step {a : FunctionAnalysis} (hfin : ¬ l.isFinished)
    (hnext : l.nextInstr s.program s.analyses = .ok (a, i)) :
    (l.step s w).world = ((Step.instruction s i).on { lane := l.advanced, world := w }).2.world := by
  have hexecute : ((Step.execute s).on { lane := l, world := w }).2.world =
      ((Step.instruction s i).on { lane := l.advanced, world := w }).2.world := by
    unfold Step.execute
    show ((liftM (l.nextInstr s.program s.analyses) >>= _ : Step Unit).on { lane := l, world := w }).2.world = _
    rw [Step.on_bind, Step.on_lift, hnext]
    show ((Step.instruction s i >>= Step.conclude a i).on { lane := l.advanced, world := w }).2.world = _
    rw [Step.on_bind]
    cases (Step.instruction s i).on { lane := l.advanced, world := w } with
    | mk result m =>
        cases result with
        | error fault => rfl
        | ok o => exact Step.world_on_conclude a i o m
  rw [← hexecute]
  unfold step
  rw [if_neg hfin]
  cases (Step.execute s).on { lane := l, world := w } with
  | mk result m => cases result <;> rfl

/-- An instruction that makes an access to a read-write resource sees the snapshot that is cached or fetched,
    and puts the one that the access leaves in its place. -/
theorem access_of_instruction (hnext : l.nextAccess? s.program s.analyses = some (i, op, h))
    (hcls : h.ref.cls = .uav) {o : Outcome}
    (hok : ((Step.instruction s i).on { lane := l.advanced, world := w }).1 = .ok o) :
    ∃ e left, o = .effect e ∧ l.access i op h (w.uav s.host h.ref.slot).1 = .ok (e, left) ∧
      (l.step s w).world = (w.uav s.host h.ref.slot).2.setUav h.ref.slot left := by
  obtain ⟨hfin, a, id, v, hinstr, hop, hacc, hid, hhandle⟩ := nextAccess?_eq_some_iff.1 hnext
  obtain ⟨e, rfl, left, haccess, hm⟩ := (Step.on_access_iff hop hacc hid hhandle hcls).1 (Prod.ext hok rfl)
  obtain ⟨accessed, changes, hnoted⟩ := Step.noted_eq s v.name h.ref { lane := l.advanced, world := w }
  rw [hnoted] at haccess hm
  refine ⟨e, left, rfl, haccess, ?_⟩
  rw [world_step hfin hinstr]
  exact congrArg Machine.world hm

/-- The step of an instruction that gives an effect succeeds when there is a place for what it assigns, and
    leaves the world that the instruction leaves. -/
theorem step_of_effect {a : FunctionAnalysis} {e : Effect} {m : Machine} (hfin : ¬ l.isFinished)
    (hnext : l.nextInstr s.program s.analyses = .ok (a, i))
    (hon : (Step.instruction s i).on { lane := l.advanced, world := w } = (.ok (.effect e), m))
    (he : ∀ id v report, e = .assign id v report → m.lane.hasPlace id) :
    (∃ state, (l.step s w).result = .ok state) ∧ (l.step s w).world = m.world ∧
      ∀ id v report, e = .assign id v report → (l.step s w).lane.value? id = some (i.assigned v) := by
  obtain ⟨m', hm', hvalue⟩ := Step.conclude_effect (a := a) (i := i) he
  rw [step_of_execute hfin (Step.execute_iff.2 ⟨a, i, _, _, hnext, hon, hm'⟩)]
  exact ⟨⟨_, rfl⟩, Step.world_conclude hm', hvalue⟩

/-- The step of such an instruction succeeds when the access does and there is a place for its result, which
    has then the value that the access gives. -/
theorem step_of_access (hnext : l.nextAccess? s.program s.analyses = some (i, op, h)) (hcls : h.ref.cls = .uav)
    {e : Effect} {left : Snapshot} (haccess : l.access i op h (w.uav s.host h.ref.slot).1 = .ok (e, left))
    (he : ∀ id v report, e = .assign id v report → l.hasPlace id) :
    (∃ state, (l.step s w).result = .ok state) ∧
      (l.step s w).world = (w.uav s.host h.ref.slot).2.setUav h.ref.slot left ∧
      ∀ id v report, e = .assign id v report → (l.step s w).lane.value? id = some (i.assigned v) := by
  obtain ⟨hfin, a, id, v, hinstr, hop, hacc, hid, hhandle⟩ := nextAccess?_eq_some_iff.1 hnext
  obtain ⟨accessed, changes, hnoted⟩ := Step.noted_eq s v.name h.ref { lane := l.advanced, world := w }
  have hm := (Step.on_access_iff (m := { lane := l.advanced, world := w }) (s := s) (o := .effect e) hop
    hacc hid hhandle hcls).2 ⟨e, rfl, left, by rw [hnoted]; exact haccess, rfl⟩
  rw [hnoted] at hm
  exact step_of_effect hfin hinstr hm he

end

end Lane

end Lockstep
