import Lockstep.Proofs.Exec.Sim

set_option autoImplicit false

/-! # What a relation of machines has to respect

`Step.Mirror` lists what instructions read of a machine and the few ways in which they change it. A
relation that respects these is respected by every instruction (`Step.Mirror.instruction`). -/

namespace Lockstep

namespace Step

/-- A value is that of an identifier, with other content. -/
def Refreshed (R : Machine → Machine → Prop) (id : Id) (v : Variable) : Prop :=
  ∃ m n old bytes, R m n ∧ m.lane.value? id = some old ∧ v = old.ofBytes bytes

/-- A handle is assigned without a report: an annotated one, or one that was set up under the name of
    its resource. -/
inductive Silently (R : Machine → Machine → Prop) (s : Setting) (i : Instr) (id : Id) (v : Variable) :
    Prop
  | annotated (hop : i.intrinsic? = some .annotateHandle) (hname : v.name = i.resultName id)
  | declared {op : Intrinsic} {m n : Machine} (hR : R m n) (hop : i.intrinsic? = some op)
      (hcreates : op = .createHandle ∨ op = .createHandleFromBinding)
      (he : m.lane.createHandle s i op = .ok (.assign id v false))

/-- A relation of machines in two settings respects what an instruction reads and does. `S` relates the
    effects, and `G` holds of the pointer that the first operand may hold. -/
structure Mirror (R : Machine → Machine → Prop) (S : Effect → Effect → Prop) (G : Pointer → Prop)
    (s s' : Setting) (i : Instr) : Prop where
  program : s'.program = s.program
  bindings : s'.bindings = s.bindings
  agrees : ∀ {m n}, R m n → m.lane.Agrees i n.lane
  memory : ∀ {m n}, R m n → n.world.memory = m.world.memory
  group : ∀ {op}, i.intrinsic? = some op → op.looksAround → ∀ {m n}, R m n →
    Lane.SameGroup i m.lane n.lane (s.groupWith m.lane) (s'.groupWith n.lane)
  pointer : ∀ {m n id p}, R m n → i.argId 0 = .ok id →
    m.lane.resolve m.world.memory id = .ok p → G p
  base : ∀ {m n p}, R m n → G p → n.lane.value? p.base = m.lane.value? p.base
  -- what is shared
  ask : ∀ r, Sim R Eq (ask s r) (ask s' r)
  srv : ∀ slot, Sim R Eq (srv s slot) (srv s' slot)
  uav : ∀ slot, Sim R Eq (uav s slot) (uav s' slot)
  setUav : ∀ {op}, i.intrinsic? = some op → op.writesResource → ∀ slot snapshot,
    Sim R Eq (setUav slot snapshot) (setUav slot snapshot)
  -- what is reported
  raise : ∀ e, Sim R Eq (raise e) (raise e)
  noteUse : ∀ {op}, i.intrinsic? = some op → op.usesHandle → ∀ name ref,
    Sim R Eq (noteUse s name ref) (noteUse s' name ref)
  -- what the lane keeps of handles
  refer : ∀ id ref, Sim R Eq
    (modifyLane fun l => { l with references := l.references.insert id ref })
    (modifyLane fun l => { l with references := l.references.insert id ref })
  describe : ∀ id properties, Sim R Eq
    (modifyLane fun l => { l with properties := l.properties.insert id properties })
    (modifyLane fun l => { l with properties := l.properties.insert id properties })
  -- memory
  allocate : ∀ {id}, i.op = .alloca → i.result = some id → ∀ pointee, Sim R Eq
    (modifyLane fun l => { l with memory := l.memory.allocate id pointee false })
    (modifyLane fun l => { l with memory := l.memory.allocate id pointee false })
  addPointer : ∀ {id p q}, i.op = .getElementPtr → i.result = some id → G p → q.base = p.base →
    Sim R Eq (modifyLane fun l => { l with memory := l.memory.addPointer id q })
      (modifyLane fun l => { l with memory := l.memory.addPointer id q })
  write : ∀ {p}, i.writesMemory → G p → ∀ bytes,
    Sim R Eq (writeThrough p bytes) (writeThrough p bytes)
  overwrite : ∀ {id p}, i.writesMemory → G p → i.argId 0 = .ok id → ∀ {target v},
    target = id ∨ target = p.base → Refreshed R target v →
    Sim R Eq (overwrite target v) (overwrite target v)
  -- effects
  proceed : ¬ i.produces → S .proceed .proceed
  gives : (∀ op, i.intrinsic? = some op → ¬ op.usesHandle) → ∀ {e}, i.Gives e → S e e
  loaded : ∀ {op}, i.intrinsic? = some op → op.usesHandle → ∀ {id v}, i.result = some id →
    v.name = i.resultName id → ¬ v.elem.isResource → S (.value id v) (.value id v)
  silent : ∀ {op}, i.intrinsic? = some op → ¬ op.usesHandle → ∀ {id v}, i.result = some id →
    Silently R s i id v → S (.assign id v false) (.assign id v false)
  stored : ∀ {id p}, i.writesMemory → G p → i.argId 0 = .ok id → ∀ {target v},
    target = id ∨ target = p.base → Refreshed R target v → S (.value target v) (.value target v)
  output : i.intrinsic? = some .storeOutput → ∀ {m n}, R m n → ∀ e,
    m.lane.storeOutput i s.recording = .ok e →
    ∃ e', n.lane.storeOutput i s'.recording = .ok e' ∧ S e e'

/-- Outcomes of one instruction on related machines. -/
inductive Outcomes (S : Effect → Effect → Prop) (i : Instr) : Outcome → Outcome → Prop
  | effect {e e' : Effect} (hi : ¬ i.isTerminator) (he : S e e') :
      Outcomes S i (.effect e) (.effect e')
  | terminate {o : Outcome} (hi : i.isTerminator)
      (ho : (∃ b ∈ i.targets, o = .jump b) ∨ o = .leave ∨ o = .effect .kill) : Outcomes S i o o

namespace Mirror

variable {R : Machine → Machine → Prop} {S : Effect → Effect → Prop} {G : Pointer → Prop}
  {s s' : Setting} {i : Instr} {op : Intrinsic}

/-! ## Reading -/

theorem lane (h : Mirror R S G s s' i) :
    Sim R (fun l l' => l.Agrees i l') Step.lane Step.lane := by
  constructor
  intro m n _ _ hR hok
  cases hok
  exact ⟨n.lane, n, rfl, h.agrees hR, hR⟩

/-- The lane with the group that it sees. -/
theorem laneInGroup (h : Mirror R S G s s' i) (hop : i.intrinsic? = some op) :
    Sim R (fun l l' => l.Agrees i l' ∧ (op.looksAround →
      Lane.SameGroup i l l' (s.groupWith l) (s'.groupWith l'))) Step.lane Step.lane := by
  constructor
  intro m n _ _ hR hok
  cases hok
  exact ⟨n.lane, n, rfl, ⟨h.agrees hR, fun haround => h.group hop haround hR⟩, hR⟩

theorem shared (h : Mirror R S G s s' i) : Sim R Eq Step.shared Step.shared := by
  constructor
  intro m n _ _ hR hok
  cases hok
  exact ⟨n.world.memory, n, rfl, (h.memory hR).symm, hR⟩

theorem arg (h : Mirror R S G s s' i) (index : Nat) :
    Sim R Eq (Step.arg i index) (Step.arg i index) := by
  unfold Step.arg
  refine .bind h.lane fun l l' hl => ?_
  rw [hl.arg]
  exact .lift_eq _

theorem argWord32 (h : Mirror R S G s s' i) (index : Nat) :
    Sim R Eq (Step.argWord32 i index) (Step.argWord32 i index) := by
  unfold Step.argWord32
  refine .bind h.lane fun l l' hl => ?_
  rw [hl.argWord32]
  exact .lift_eq _

theorem mem_args_of_argId {index : Nat} {id : Id} (hid : i.argId index = .ok id) :
    .ref id ∈ i.args := by
  unfold Instr.argId at hid
  split at hid
  · next id' hid' =>
      cases hid
      obtain ⟨o, ho, hoid⟩ := Option.bind_eq_some_iff.1 hid'
      cases o with
      | ref id' =>
          obtain rfl := Option.some.inj hoid
          exact List.mem_of_getElem? ho
      | _ => cases hoid
  · cases hid

/-! ## Handles -/

theorem handle (h : Mirror R S G s s' i) (hop : i.intrinsic? = some op) (huses : op.usesHandle)
    {index : Nat} {id : Id} (hid : i.argId index = .ok id) :
    Sim R Eq (Step.handle s id) (Step.handle s' id) := by
  unfold Step.handle
  refine .bind h.lane fun l l' hl => ?_
  rw [hl.handle _ (mem_args_of_argId hid), h.program]
  exact .next (.lift_eq _) fun ⟨v, hd⟩ => .next (h.noteUse hop huses ..) fun _ => .pure rfl

theorem createHandleFromHeap (h : Mirror R S G s s' i)
    (hno : ∀ op, i.intrinsic? = some op → ¬ op.usesHandle) :
    Sim R S (Step.createHandleFromHeap s i) (Step.createHandleFromHeap s' i) := by
  unfold Step.createHandleFromHeap
  refine .compute fun id hid => .next (h.argWord32 _) fun index => ?_
  refine .next (h.argWord32 _) fun ofSamplers => .next (h.ask (.reference _)) fun ref => ?_
  refine .next (h.ask (.directAccess ..)) fun access => .next (h.refer ..) fun _ => .pure ?_
  exact h.gives hno (.value id _ (Instr.yields_resultId id hid) rfl)

theorem copyReference (h : Mirror R S G s s' i) (source id : Id) :
    Sim R Eq (Step.copyReference source id) (Step.copyReference source id) := by
  unfold Step.copyReference
  refine .bind h.lane fun l l' hl => ?_
  rw [hl.references]
  split
  · exact h.refer ..
  · exact .pure rfl

theorem setProperties (h : Mirror R S G s s' i) (id : Id) (properties : HandleProperties) :
    Sim R Eq (Step.setProperties id properties) (Step.setProperties id properties) := by
  unfold Step.setProperties
  refine .bind h.lane fun l l' hl => ?_
  rw [hl.properties]
  exact .next (h.describe ..) fun _ => .ite (fun _ => .throw _ _) fun _ => .pure rfl

theorem annotateHandle (h : Mirror R S G s s' i) (hop : i.intrinsic? = some .annotateHandle) :
    Sim R S (Step.annotateHandle i) (Step.annotateHandle i) := by
  unfold Step.annotateHandle
  refine .compute fun id hid => .next (.lift_eq _) fun source => .next (h.arg 0) fun v => ?_
  refine .next (h.copyReference ..) fun _ => .next (h.arg 1) fun words => ?_
  refine .next (h.setProperties ..) fun _ => .pure ?_
  exact h.silent hop Bool.false_ne_true (Instr.yields_resultId id hid) (.annotated hop rfl)

/-! ## Resources -/

theorem loadConstants (h : Mirror R S G s s' i) (hop : i.intrinsic? = some .cBufferLoadLegacy) :
    Sim R S (Step.loadConstants s i) (Step.loadConstants s' i) := by
  unfold Step.loadConstants
  refine .compute fun id hid => .compute fun source hsource => ?_
  have hres := Instr.yields_resultId id hid
  refine .next (h.handle hop rfl hsource) fun hd => .guard fun _ => ?_
  split
  · exact .throw _ _
  · next elem _ =>
      refine .next (h.argWord32 1) fun register => ?_
      have hloaded : ∀ f, S (.value id ((Variable.row (i.resultName id) elem.elem
          (max 1 (min (16 / max elem.byteSize 1) 4)).toUInt8).fill f))
          (.value id ((Variable.row (i.resultName id) elem.elem
            (max 1 (min (16 / max elem.byteSize 1) 4)).toUInt8).fill f)) := fun f =>
        h.loaded hop rfl hres rfl (by simp [Variable.fill, Variable.row, Ty.isResource_elem])
      have hblank : S (.value id (Variable.row (i.resultName id) elem.elem
          (max 1 (min (16 / max elem.byteSize 1) 4)).toUInt8)) (.value id
          (Variable.row (i.resultName id) elem.elem
            (max 1 (min (16 / max elem.byteSize 1) 4)).toUInt8)) :=
        h.loaded hop rfl hres rfl (by simp [Variable.row, Ty.isResource_elem])
      rw [h.bindings]
      split
      · exact .pure hblank
      · exact .ite (fun _ => .pure hblank) fun _ => .pure (hloaded _)

/-- A row of components is no resource, and so is what fills it. -/
theorem loadedRow (h : Mirror R S G s s' i) (hop : i.intrinsic? = some op) (huses : op.usesHandle)
    {id : Id} (hid : i.result = some id) {v : Variable} (hname : v.name = i.resultName id)
    (helem : v.elem.isResource = false) : S (.value id v) (.value id v) :=
  h.loaded hop huses hid hname (by simp [helem])

theorem loadSource (h : Mirror R S G s s' i) (op : Intrinsic) (ref : ResourceRef) :
    Sim R Eq (Step.loadSource s i op ref) (Step.loadSource s' i op ref) := by
  unfold Step.loadSource
  split
  · refine .bind h.lane fun l l' hl => ?_
    rw [hl.address]
    exact .next (.lift_eq _) fun address => .next (h.srv _) fun snapshot => .pure rfl
  · refine .next (h.uav _) fun snapshot => .bind h.lane fun l l' hl => ?_
    rw [hl.address]
    exact .next (.lift_eq _) fun address => .pure rfl
  · exact .throw _ _

theorem loadElement (h : Mirror R S G s s' i) (hop : i.intrinsic? = some op) (huses : op.usesHandle)
    (hd : Handle) : Sim R S (Step.loadElement s i op hd) (Step.loadElement s' i op hd) := by
  unfold Step.loadElement
  refine .compute fun id hid => .next (.lift_eq _) fun ⟨ty, columns⟩ => ?_
  refine .next (h.loadSource ..) fun ⟨snapshot, address⟩ => ?_
  have hres := Instr.yields_resultId id hid
  dsimp only
  split
  · exact .pure (h.loadedRow hop huses hres rfl (Ty.isResource_elem ty))
  · exact .pure (h.loadedRow hop huses hres rfl (Ty.isResource_elem ty))

theorem storeElement (h : Mirror R S G s s' i) (hop : i.intrinsic? = some op)
    (hwrites : op.writesResource) (hno : op.produces = false) (hd : Handle) :
    Sim R S (Step.storeElement s i op hd) (Step.storeElement s' i op hd) := by
  have hi : ¬ i.produces := Instr.not_produces_of_intrinsic? hop hno
  unfold Step.storeElement
  refine .guard fun _ => .bind h.lane fun l l' hl => ?_
  rw [hl.storedValues]
  refine .next (.lift_eq _) fun values => ?_
  split
  · exact .throw _ _
  · refine .next (h.uav _) fun snapshot => .bind h.lane fun l l' hl => ?_
    rw [hl.address]
    refine .next (.lift_eq _) fun address => ?_
    dsimp only
    split
    · exact .next (h.setUav hop hwrites ..) fun _ => .pure (h.proceed hi)
    · exact .pure (h.proceed hi)

theorem atomicChange (h : Mirror R S G s s' i) (op : Intrinsic) (bits : Nat) :
    Sim R Eq (Step.atomicChange i op bits) (Step.atomicChange i op bits) := by
  unfold Step.atomicChange
  refine .ite (fun _ => .next (h.argWord32 1) fun number => ?_) fun _ => ?_
  · dsimp only
    split
    · exact .throw _ _
    · exact .next (h.arg 5) fun operand => .pure rfl
  · exact .next (h.arg 5) fun replacement => .next (h.arg 4) fun expected => .pure rfl

theorem updateElement (h : Mirror R S G s s' i) (hop : i.intrinsic? = some op)
    (huses : op.usesHandle) (hwrites : op.writesResource) (hd : Handle) :
    Sim R S (Step.updateElement s i op hd) (Step.updateElement s' i op hd) := by
  unfold Step.updateElement
  refine .guard fun _ => .compute fun ⟨id, result⟩ hblank => .next (h.atomicChange ..) fun f => ?_
  obtain ⟨hid, hname⟩ := Instr.yields_blank _ hblank
  have helem := Instr.isResource_blank _ hblank
  refine .next (h.uav _) fun snapshot => .bind h.lane fun l l' hl => ?_
  rw [hl.address]
  refine .next (.lift_eq _) fun address => ?_
  dsimp only
  split
  · exact .next (h.setUav hop hwrites ..) fun _ => .pure (h.loadedRow hop huses hid hname helem)
  · exact .pure (h.loadedRow hop huses hid hname helem)

theorem textureRequest (h : Mirror R S G s s' i) (hop : i.intrinsic? = some op)
    (huses : op.usesHandle) (ref : ResourceRef) :
    Sim R Eq (Step.textureRequest s i op ref) (Step.textureRequest s' i op ref) := by
  unfold Step.textureRequest
  refine .bind h.lane fun l l' hl => ?_
  rw [hl.blankRequest]
  dsimp only
  split
  · refine .bind h.lane fun l l' hl => ?_
    rw [hl.loadRequest]
    exact .lift_eq _
  · next at_ hat =>
      refine .compute fun id hid => .next (h.handle hop huses hid) fun sampler => .guard fun _ => ?_
      refine .bind (h.laneInGroup hop) fun l l' ⟨hl, hgroup⟩ => ?_
      rw [hl.sampleRequest _ _ fun himplicit => hgroup (by
        unfold Intrinsic.looksAround
        rw [hat, Option.any_some, himplicit]
        simp)]
      exact .lift_eq _

theorem texture (h : Mirror R S G s s' i) (hop : i.intrinsic? = some op) (huses : op.usesHandle)
    (hd : Handle) : Sim R S (Step.texture s i op hd) (Step.texture s' i op hd) := by
  unfold Step.texture
  refine .compute fun id hid => .guard fun _ => .compute fun result hresult => ?_
  obtain ⟨hname, helem⟩ := Instr.yields_sampleResult result hresult
  refine .next (h.textureRequest hop huses _) fun request => .next (h.ask (.sample _)) fun answered => ?_
  refine .next (.lift_eq _) fun answer => .bind h.lane fun l l' hl => ?_
  rw [hl.chooseLod]
  refine .compute fun v hv => .next (h.raise _) fun _ => .pure ?_
  obtain ⟨hvname, hvelem⟩ := Lane.yields_chooseLod v hv
  exact h.loadedRow hop huses (Instr.yields_resultId id hid) (hvname.trans hname)
    (hvelem ▸ helem)

/-! ## Facts about resources -/

theorem renderTargetCount (h : Mirror R S G s s' i)
    (hno : ∀ op, i.intrinsic? = some op → ¬ op.usesHandle) (op : Intrinsic) :
    Sim R S (Step.renderTargetCount s i op) (Step.renderTargetCount s' i op) := by
  unfold Step.renderTargetCount
  refine .compute fun ⟨id, result⟩ hblank => .bind h.lane fun l l' hl => ?_
  rw [hl.stage]
  refine .next (h.ask (.renderTargetInfo ..)) fun info => .pure ?_
  obtain ⟨hid, hname⟩ := Instr.yields_blank _ hblank
  exact h.gives hno (.value id _ hid hname)

theorem renderTargetPosition (h : Mirror R S G s s' i)
    (hno : ∀ op, i.intrinsic? = some op → ¬ op.usesHandle) (op : Intrinsic) :
    Sim R S (Step.renderTargetPosition s i op) (Step.renderTargetPosition s' i op) := by
  unfold Step.renderTargetPosition
  refine .compute fun id hid => .bind h.lane fun l l' hl => ?_
  rw [hl.stage]
  refine .next (h.ask (.renderTargetInfo ..)) fun info => .next (h.argWord32 0) fun index => .pure ?_
  exact h.gives hno (.value id _ (Instr.yields_resultId id hid) rfl)

theorem texturePosition (h : Mirror R S G s s' i) (hop : i.intrinsic? = some op)
    (huses : op.usesHandle) (hd : Handle) :
    Sim R S (Step.texturePosition s i op hd) (Step.texturePosition s' i op hd) := by
  unfold Step.texturePosition
  refine .compute fun id hid => .bind h.lane fun l l' hl => ?_
  rw [hl.stage]
  refine .next (h.ask (.sampleInfo ..)) fun info => .next (h.argWord32 1) fun index => .pure ?_
  exact h.loadedRow hop huses (Instr.yields_resultId id hid) rfl rfl

theorem dimensions (h : Mirror R S G s s' i) (hop : i.intrinsic? = some op) (huses : op.usesHandle)
    (hd : Handle) : Sim R S (Step.dimensions s i hd) (Step.dimensions s' i hd) := by
  unfold Step.dimensions
  refine .compute fun id hid => .bind h.lane fun l l' hl => ?_
  rw [hl.argWord32OrZero]
  refine .next (.lift_eq _) fun mip => .bind h.lane fun l l' hl => ?_
  rw [hl.stage]
  refine .next (h.ask (.resourceInfo ..)) fun dims => .pure ?_
  exact h.loadedRow hop huses (Instr.yields_resultId id hid) rfl rfl

/-! ## Memory -/

theorem pointerArg (h : Mirror R S G s s' i) :
    Sim R (fun x y => y = x ∧ i.argId 0 = .ok x.1 ∧ G x.2) (Step.pointerArg i)
      (Step.pointerArg i) := by
  unfold Step.pointerArg
  refine .compute fun id hid => .ofMemory fun hR => ?_
  rw [(h.agrees hR).resolve, h.memory hR]
  exact .compute fun p hp => .pure ⟨rfl, hid, h.pointer hR hid hp⟩

theorem readThrough (h : Mirror R S G s s' i) (p : Pointer) :
    Sim R Eq (Step.readThrough p) (Step.readThrough p) := by
  unfold Step.readThrough
  refine .ofMemory fun hR => ?_
  rw [(h.agrees hR).readThrough, h.memory hR]
  exact .lift_eq _

/-- The value of an identifier that the machines agree on. -/
theorem assigned {id : Id} (hid : ∀ {m n}, R m n → n.lane.value? id = m.lane.value? id) :
    Sim R (fun v w => w = v ∧ ∀ bytes, Refreshed R id (v.ofBytes bytes)) (Step.assigned id)
      (Step.assigned id) := by
  unfold Step.assigned
  refine .ofLane fun {m n} hR => ?_
  rw [hid hR]
  split
  · next v hv => exact .pure ⟨rfl, fun bytes => ⟨m, n, v, bytes, hR, hv, rfl⟩⟩
  · exact .throw _ _

theorem store (h : Mirror R S G s s' i) (hwrites : i.writesMemory) {id : Id} {p : Pointer}
    (hid : i.argId 0 = .ok id) (hp : G p) (bytes : Bytes) :
    Sim R (fun x y => y = x ∧ (x.1 = id ∨ x.1 = p.base) ∧ Refreshed R x.1 x.2)
      (Step.store id p bytes) (Step.store id p bytes) := by
  unfold Step.store
  refine .next (h.write hwrites hp bytes) fun _ => .bind h.lane fun l l' hl => ?_
  refine .next h.shared fun shared => ?_
  rw [hl.memoryOf]
  refine .bind (assigned fun hR => h.base hR hp) fun v w ⟨hvw, hv⟩ => ?_
  subst hvw
  refine .compute fun after hafter => ?_
  have hafter : Refreshed R p.base after := by
    unfold Memory.reload at hafter
    split at hafter
    · cases hafter
    · cases hafter
      exact hv _
  refine .ite (fun _ => .pure ⟨rfl, .inr rfl, hafter⟩) fun _ => ?_
  refine .next (h.overwrite hwrites hp hid (.inr rfl) hafter) fun _ => ?_
  refine .bind (assigned fun hR => (h.agrees hR).value id (mem_args_of_argId hid))
    fun v w ⟨hvw, hv⟩ => ?_
  subst hvw
  exact .next (h.readThrough p) fun bytes => .pure ⟨rfl, .inl rfl, hv bytes⟩

theorem alloca (h : Mirror R S G s s' i) (hop : i.op = .alloca) (hno : i.intrinsic? = none) :
    Sim R S (Step.alloca i) (Step.alloca i) := by
  have halloca : Step.alloca i = (do
      let id ← i.resultId
      i.ty.pointee?.elim (throw (.memory (.notAPointerType id))) fun pointee => do
        modifyLane fun l => { l with memory := l.memory.allocate id pointee false }
        return .value id (Variable.zeroed (i.resultName id) pointee)) := by
    unfold Step.alloca Memory.allocateFor
    congr 1
    funext id
    cases i.ty.pointee? <;> rfl
  rw [halloca]
  refine .compute fun id hid => ?_
  have hres := Instr.yields_resultId id hid
  cases i.ty.pointee? with
  | none => exact .throw _ _
  | some pointee =>
    refine .next (h.allocate hop hres _) fun _ => .pure ?_
    exact h.gives (fun op hop => by rw [hno] at hop; cases hop)
      (.value id _ hres (Variable.name_zeroed _ _))

theorem load (h : Mirror R S G s s' i) (hno : i.intrinsic? = none) :
    Sim R S (Step.load i) (Step.load i) := by
  unfold Step.load
  refine .compute fun ⟨id, result⟩ hblank => .bind h.pointerArg fun ⟨_, p⟩ _ ⟨hxy, _⟩ => ?_
  subst hxy
  refine .next (h.readThrough p) fun bytes => .pure ?_
  obtain ⟨hid, hname⟩ := Instr.yields_blank _ hblank
  exact h.gives (fun op hop => by rw [hno] at hop; cases hop)
    (.value id _ hid ((Variable.name_ofBytes ..).trans hname))

theorem storeArg (h : Mirror R S G s s' i) (hwrites : i.writesMemory) :
    Sim R S (Step.storeArg i) (Step.storeArg i) := by
  unfold Step.storeArg
  refine .bind h.pointerArg fun ⟨id, p⟩ _ ⟨hxy, hid, hp⟩ => ?_
  subst hxy
  refine .next (h.arg 1) fun v => .bind (h.store hwrites hid hp _)
    fun ⟨target, v⟩ _ ⟨hxy, htarget, hv⟩ => ?_
  subst hxy
  exact .pure (h.stored hwrites hp hid htarget hv)

theorem elementPointer (h : Mirror R S G s s' i) (hop : i.op = .getElementPtr)
    (hno : i.intrinsic? = none) : Sim R S (Step.elementPointer i) (Step.elementPointer i) := by
  unfold Step.elementPointer
  refine .compute fun id hid => ?_
  have hres := Instr.yields_resultId id hid
  refine .ofMemory fun hR => ?_
  rw [(h.agrees hR).derive, h.memory hR]
  refine .compute fun q hq => ?_
  obtain ⟨src, p, hsrc, hp, hbase⟩ := Lane.yields_derive q hq
  have hp := h.pointer hR hsrc hp
  refine .next (h.readThrough q) fun bytes => .next (h.addPointer hop hres hp hbase) fun _ => .pure ?_
  refine h.gives (fun op hop => by rw [hno] at hop; cases hop) (.value id _ hres ?_)
  rw [Variable.name_ofBytes, Variable.name_zeroed]

theorem atomic (h : Mirror R S G s s' i) (hwrites : i.writesMemory) (hno : i.intrinsic? = none) :
    Sim R S (Step.atomic i) (Step.atomic i) := by
  unfold Step.atomic
  refine .bind h.pointerArg fun ⟨id, p⟩ _ ⟨hxy, hid, hp⟩ => ?_
  subst hxy
  refine .next (h.arg 1) fun operand => .next (h.readThrough p) fun bytes => ?_
  dsimp only
  split
  · exact .throw _ _
  · refine .bind (h.store hwrites hid hp _) fun ⟨target, v⟩ _ ⟨hxy, ht, hv⟩ => ?_
    subst hxy
    dsimp only
    split
    · exact .pure (h.stored hwrites hp hid ht hv)
    · next result hresult =>
        refine .next (h.overwrite hwrites hp hid ht hv) fun _ => .pure ?_
        exact h.gives (fun op hop => by rw [hno] at hop; cases hop) (.value result _ hresult rfl)

theorem onMemory (h : Mirror R S G s s' i) (hno : i.intrinsic? = none)
    (hwrites : i.op ∉ [.alloca, .load, .loadAtomic, .getElementPtr] → i.writesMemory) :
    Sim R S (Step.memory i) (Step.memory i) := by
  unfold Step.memory
  split
  · next hop => exact h.alloca hop hno
  · exact h.load hno
  · exact h.load hno
  · next hop => exact h.storeArg (by rw [Instr.writesMemory, hop])
  · next hop => exact h.storeArg (by rw [Instr.writesMemory, hop])
  · next hop => exact h.elementPointer hop hno
  · next halloca hload hloadAtomic _ _ helement =>
      exact h.atomic (hwrites (by simpa using ⟨halloca, hload, hloadAtomic, helement⟩)) hno

/-! ## All instructions -/

theorem transcendental (h : Mirror R S G s s' i)
    (hno : ∀ op, i.intrinsic? = some op → ¬ op.usesHandle) (op : Intrinsic) :
    Sim R S (Step.transcendental s i op) (Step.transcendental s' i op) := by
  unfold Step.transcendental
  refine .compute fun ⟨id, result⟩ hblank => .next (h.arg 0) fun input => ?_
  refine .next (h.ask (.math ..)) fun answered => .next (.lift_eq _) fun answer => .pure ?_
  obtain ⟨hid, hname⟩ := Instr.yields_blank _ hblank
  exact h.gives hno (.value id _ hid hname)

theorem onHandle (h : Mirror R S G s s' i) (hop : i.intrinsic? = some op) (huses : op.usesHandle) :
    Sim R S (Step.onHandle s i op) (Step.onHandle s' i op) := by
  unfold Step.onHandle
  refine .compute fun id hid => .next (h.handle hop huses hid) fun hd => ?_
  split
  · exact h.dimensions hop huses hd
  · exact h.texturePosition hop huses hd
  · exact .ite (fun _ => h.texture hop huses hd) fun _ => h.loadElement hop huses hd
  · exact h.loadElement hop huses hd
  · exact h.loadElement hop huses hd
  · exact h.storeElement hop rfl rfl hd
  · exact h.storeElement hop rfl rfl hd
  · exact h.storeElement hop rfl rfl hd
  · exact h.updateElement hop huses rfl hd
  · exact h.updateElement hop huses rfl hd
  · exact h.texture hop huses hd

/-- What only computes, of lanes that agree. -/
theorem computed (h : Mirror R S G s s' i)
    (hno : ∀ op, i.intrinsic? = some op → ¬ op.usesHandle) {x : Except Fault Effect}
    (hx : Yields i.Gives x) : Sim R S (liftM x : Step Effect) (liftM x) :=
  .lift fun e he => ⟨e, he, h.gives hno (hx e he)⟩

/-- A handle of a declared resource. -/
theorem created (h : Mirror R S G s s' i) (hop : i.intrinsic? = some op)
    (hcreates : op = .createHandle ∨ op = .createHandleFromBinding) {m n : Machine} (hR : R m n) :
    Sim R S (liftM (m.lane.createHandle s i op) : Step Effect)
      (liftM (m.lane.createHandle s i op)) := by
  have huses : op.usesHandle = false := by
    rcases hcreates with rfl | rfl <;> rfl
  refine .lift fun e he => ⟨e, he, ?_⟩
  rcases Lane.yields_createHandle s e he with hgives | ⟨id, v, hid, rfl⟩
  · exact h.gives (Instr.not_usesHandle hop huses) hgives
  · exact h.silent hop (by simp [huses]) hid (.declared hR hop hcreates he)

theorem effect (h : Mirror R S G s s' i) (hop : i.intrinsic? = some op) :
    Sim R S (Step.effect s i op) (Step.effect s' i op) := by
  have hno := Instr.not_usesHandle hop
  unfold Step.effect
  refine .ofLane fun {m n} hR => ?_
  have hl := h.agrees hR
  split
  · rw [hl.loadInput]
    exact h.computed (hno rfl) Lane.gives_loadInput
  · exact .lift (h.output hop hR)
  · rw [(h.group hop rfl hR).barrier hl]
    exact h.computed (hno rfl) (Lane.gives_barrier hop _)
  · rw [hl.discard]
    exact h.computed (hno rfl) (Lane.gives_discard hop)
  · rw [hl.createHandle h.program h.bindings]
    exact h.created hop (.inl rfl) hR
  · rw [hl.createHandle h.program h.bindings]
    exact h.created hop (.inr rfl) hR
  · exact h.createHandleFromHeap (hno rfl)
  · exact h.annotateHandle hop
  · exact h.loadConstants hop
  · exact h.renderTargetCount (hno rfl) _
  · exact h.renderTargetPosition (hno rfl) _
  all_goals with_reducible first
    | exact h.onHandle hop rfl
    | exact .throw _ _

theorem intrinsic (h : Mirror R S G s s' i) (hop : i.intrinsic? = some op) :
    Sim R S (Step.intrinsic s i op) (Step.intrinsic s' i op) := by
  unfold Step.intrinsic
  refine .ofLane fun {m n} hR => ?_
  have hl := h.agrees hR
  rw [hl.math?]
  refine .ite (fun htrans => ?_) fun _ => ?_
  · have huses := Intrinsic.usesHandle_of_isTranscendental htrans
    exact h.transcendental (Instr.not_usesHandle hop huses) op
  split
  · next effect _ _ hmath =>
      have huses := Intrinsic.usesHandle_of_math hmath
      exact h.computed (Instr.not_usesHandle hop huses) (Lane.gives_math hmath)
  · next builtin _ _ hbuiltin =>
      have huses := Intrinsic.usesHandle_of_builtin hbuiltin
      rw [hl.readBuiltin, h.bindings]
      exact h.computed (Instr.not_usesHandle hop huses) (Lane.gives_readBuiltin _ _)
  · next axis fine _ _ hderivative =>
      have huses := Intrinsic.usesHandle_of_derivative hderivative
      have haround : op.looksAround := by
        unfold Intrinsic.looksAround
        rw [hderivative]
        rfl
      rw [(h.group hop haround hR).derivativeOf hl]
      exact h.computed (Instr.not_usesHandle hop huses) (Lane.gives_derivativeOf _ _ _)
  · exact h.effect hop

theorem call (h : Mirror R S G s s' i) (hi : i.op = .call) :
    Sim R S (Step.call s i) (Step.call s' i) := by
  unfold Step.call
  split
  · next op hcallee => exact h.intrinsic (by rw [Instr.intrinsic?, hi, hcallee])
  · next hcallee => exact .pure (h.proceed (by simp [Instr.produces, hi, hcallee]))
  · next hcallee => exact .pure (h.proceed (by simp [Instr.produces, hi, hcallee]))
  · exact .throw _ _
  · exact .throw _ _

/-- Instructions that do not end their block have related effects on related machines, and leave
    related machines. -/
theorem compute (h : Mirror R S G s s' i) : Sim R S (Step.compute s i) (Step.compute s' i) := by
  have hintrinsic : i.op ≠ .call → i.intrinsic? = none := by
    intro hi
    unfold Instr.intrinsic?
    split
    · next hop _ => exact absurd hop hi
    · rfl
  have hno : i.op ≠ .call → ∀ op, i.intrinsic? = some op → ¬ op.usesHandle := by
    intro hi op hop
    rw [hintrinsic hi] at hop
    cases hop
  unfold Step.compute
  refine .ofLane fun {m n} hR => ?_
  have hl := h.agrees hR
  split
  all_goals next hop => with_reducible first
    | exact .pure (h.proceed (by simp [Instr.produces, hop]))
    | exact h.call hop
    | exact .throw _ _
    | (rw [hl.phi]; exact h.computed (hno (by rw [hop]; decide)) Lane.gives_phi)
    | (rw [hl.select]; exact h.computed (hno (by rw [hop]; decide)) Lane.gives_select)
    | (rw [hl.arithmetic]; exact h.computed (hno (by rw [hop]; decide)) Lane.gives_arithmetic)
    | (rw [hl.compare]; exact h.computed (hno (by rw [hop]; decide)) Lane.gives_compare)
    | (rw [hl.cast]; exact h.computed (hno (by rw [hop]; decide)) Lane.gives_cast)
    | (rw [hl.vector]; exact h.computed (hno (by rw [hop]; decide)) Lane.gives_vector)
    | exact h.onMemory (hintrinsic (by rw [hop]; decide)) (by simp [Instr.writesMemory, hop])

/-- All instructions have related outcomes on related machines. -/
theorem instruction (h : Mirror R S G s s' i) :
    Sim R (Outcomes S i) (Step.instruction s i) (Step.instruction s' i) := by
  unfold Step.instruction
  refine .ite (fun hi => .bind h.lane fun l l' hl => ?_) fun hi => ?_
  · rw [hl.terminate]
    exact .lift fun o ho => ⟨o, ho, .terminate hi (Lane.terminate_cases ho)⟩
  · exact .bind h.compute fun e e' he => .pure (.effect hi he)

end Mirror

/-- A marker does nothing. -/
theorem on_instruction_of_isNop {i : Instr} (hi : i.isNop) (s : Setting) (m : Machine) :
    (Step.instruction s i).on m = (.ok (.effect .proceed), m) := by
  unfold Instr.isNop at hi
  split at hi
  · next hop =>
      unfold Step.instruction Instr.isTerminator Step.compute
      rw [hop]
      rfl
  · next hop hcallee =>
      unfold Step.instruction Instr.isTerminator Step.compute Step.call
      rw [hop, hcallee]
      rfl
  · next hop hcallee =>
      unfold Step.instruction Instr.isTerminator Step.compute Step.call
      rw [hop, hcallee]
      rfl
  · cases hi

/-- So it keeps whatever is related. -/
theorem Sim.instruction_of_isNop {R : Machine → Machine → Prop} {S : Effect → Effect → Prop}
    {s s' : Setting} {i : Instr} (hS : S .proceed .proceed) (hi : i.isNop) :
    Sim R (Outcomes S i) (Step.instruction s i) (Step.instruction s' i) := by
  constructor
  intro m n o m' hR hok
  cases (on_instruction_of_isNop hi s m).symm.trans hok
  exact ⟨_, n, on_instruction_of_isNop hi s' n, .effect (Instr.not_isTerminator_of_isNop hi) hS, hR⟩

end Step

end Lockstep
