import Lockstep.Exec.Dispatch

set_option autoImplicit false

/-! # Properties that instructions inherit from their parts

The instructions that stay within their block are put together from few kinds of parts: requests to the
host, notes about handles, accesses to elements of resources, and memory. A property that these have, and
that computations inherit from their parts, is one of every instruction (`Step.Inherits.compute`). -/

namespace Lockstep

/-- The resource whose content a request asks for. -/
def HostRequest.content? : HostRequest → Option (ResourceClass × Slot)
  | .fetchSrv slot => some (.srv, slot)
  | .fetchUav slot => some (.uav, slot)
  | _ => none

/-- Whether the intrinsic loads, stores or updates an element of a resource. -/
def Intrinsic.accesses : Intrinsic → Bool
  | .bufferLoad | .rawBufferLoad | .textureLoad | .bufferStore | .rawBufferStore | .textureStore
  | .atomicBinOp | .atomicCompareExchange => true
  | _ => false

namespace Step

/-- The part of an access that works on the resource of its handle. -/
def element (s : Setting) (i : Instr) (op : Intrinsic) (h : Handle) : Step Effect :=
  match op with
  | .bufferStore | .rawBufferStore | .textureStore => storeElement s i op h
  | .atomicBinOp | .atomicCompareExchange => updateElement s i op h
  | _ => loadElement s i op h

/-- A property that computations inherit from their parts, and that requests to the host have, but those for
    the content of resources, and notes about handles. -/
structure Threads (P : ∀ {α : Type}, Step α → Prop) (s : Setting) : Prop where
  bind : ∀ {α β : Type} {x : Step α} {f : α → Step β}, P x → (∀ a, P (f a)) → P (x >>= f)
  pure : ∀ {α : Type} (a : α), P (Pure.pure a : Step α)
  throw : ∀ {α : Type} (fault : Fault), P (MonadExcept.throw fault : Step α)
  lift : ∀ {α : Type} (x : Except Fault α), P (liftM x : Step α)
  lane : P Step.lane
  raise : ∀ e, P (raise e)
  ask : ∀ {r}, r.content? = none → P (ask s r)
  noteUse : ∀ name ref, P (noteUse s name ref)
  refer : ∀ id ref, P (modifyLane fun l => { l with references := l.references.insert id ref })
  describe : ∀ id properties,
    P (modifyLane fun l => { l with properties := l.properties.insert id properties })

/-- Such a property that all parts of an instruction have. -/
structure Inherits (P : ∀ {α : Type}, Step α → Prop) (s : Setting) (i : Instr) : Prop
    extends Threads P s where
  element : ∀ {op}, i.intrinsic? = some op → op.accesses → ∀ h, P (element s i op h)
  memory : P (memory i)

variable {P : ∀ {α : Type}, Step α → Prop} {s : Setting} {i : Instr} {op : Intrinsic}

namespace Threads

theorem ite (_ : Threads P s) {α : Type} {c : Prop} [Decidable c] {x y : Step α} (hx : P x) (hy : P y) :
    P (if c then x else y) := by
  split
  · exact hx
  · exact hy

/-- A computation that is given up on a condition. -/
theorem guard (h : Threads P s) {α : Type} {c : Prop} [Decidable c] {fault : Fault} {x : Unit → Step α}
    (hx : ∀ u, P (x u)) : P (if c then MonadExcept.throw fault >>= x else x ()) :=
  h.ite (h.bind (h.throw fault) hx) (hx ())

theorem arg (h : Threads P s) (index : Nat) : P (Step.arg i index) :=
  h.bind h.lane fun _ => h.lift _

theorem argWord32 (h : Threads P s) (index : Nat) : P (Step.argWord32 i index) :=
  h.bind h.lane fun _ => h.lift _

/-! ## Handles -/

theorem handle (h : Threads P s) (id : Id) : P (Step.handle s id) := by
  unfold Step.handle
  exact h.bind h.lane fun _ => h.bind (h.lift _) fun ⟨_, _⟩ => h.bind (h.noteUse ..) fun _ => h.pure _

theorem createHandleFromHeap (h : Threads P s) : P (Step.createHandleFromHeap s i) := by
  unfold Step.createHandleFromHeap
  refine h.bind (h.lift _) fun id => h.bind (h.argWord32 _) fun index => ?_
  refine h.bind (h.argWord32 _) fun ofSamplers => h.bind (h.ask (r := .reference _) rfl) fun ref => ?_
  exact h.bind (h.ask (r := .directAccess ..) rfl) fun access => h.bind (h.refer ..) fun _ => h.pure _

theorem copyReference (h : Threads P s) (source id : Id) : P (Step.copyReference source id) := by
  unfold Step.copyReference
  refine h.bind h.lane fun l => ?_
  split
  · exact h.refer ..
  · exact h.pure _

theorem setProperties (h : Threads P s) (id : Id) (properties : HandleProperties) :
    P (Step.setProperties id properties) := by
  unfold Step.setProperties
  refine h.bind h.lane fun l => h.bind (h.describe ..) fun _ => ?_
  exact h.ite (h.throw _) (h.pure _)

theorem annotateHandle (h : Threads P s) : P (Step.annotateHandle i) := by
  unfold Step.annotateHandle
  refine h.bind (h.lift _) fun id => h.bind (h.lift _) fun source => h.bind (h.arg _) fun v => ?_
  refine h.bind (h.copyReference ..) fun _ => h.bind (h.arg _) fun words => ?_
  exact h.bind (h.setProperties ..) fun _ => h.pure _

/-! ## Resources -/

theorem loadConstants (h : Threads P s) : P (Step.loadConstants s i) := by
  unfold Step.loadConstants
  refine h.bind (h.lift _) fun id => h.bind (h.lift _) fun source => h.bind (h.handle _) fun hd => ?_
  refine h.guard fun _ => ?_
  split
  · exact h.throw _
  · refine h.bind (h.argWord32 _) fun register => ?_
    split
    · exact h.pure _
    · exact h.ite (h.pure _) (h.pure _)

theorem textureRequest (h : Threads P s) (ref : ResourceRef) : P (Step.textureRequest s i op ref) := by
  unfold Step.textureRequest
  refine h.bind h.lane fun l => ?_
  dsimp only
  split
  · exact h.bind h.lane fun l => h.lift _
  · refine h.bind (h.lift _) fun id => h.bind (h.handle _) fun sampler => h.guard fun _ => ?_
    exact h.bind h.lane fun l => h.lift _

theorem texture (h : Threads P s) (hd : Handle) : P (Step.texture s i op hd) := by
  unfold Step.texture
  refine h.bind (h.lift _) fun id => h.guard fun _ => h.bind (h.lift _) fun result => ?_
  refine h.bind (h.textureRequest _) fun request => h.bind (h.ask (r := .sample _) rfl) fun answered => ?_
  refine h.bind (h.lift _) fun answer => h.bind h.lane fun l => h.bind (h.lift _) fun v => ?_
  exact h.bind (h.raise _) fun _ => h.pure _

theorem renderTargetCount (h : Threads P s) : P (Step.renderTargetCount s i op) := by
  unfold Step.renderTargetCount
  refine h.bind (h.lift _) fun ⟨id, result⟩ => h.bind h.lane fun l => ?_
  exact h.bind (h.ask (r := .renderTargetInfo ..) rfl) fun info => h.pure _

theorem renderTargetPosition (h : Threads P s) : P (Step.renderTargetPosition s i op) := by
  unfold Step.renderTargetPosition
  refine h.bind (h.lift _) fun id => h.bind h.lane fun l =>
    h.bind (h.ask (r := .renderTargetInfo ..) rfl) fun info => ?_
  exact h.bind (h.argWord32 _) fun index => h.pure _

theorem texturePosition (h : Threads P s) (hd : Handle) : P (Step.texturePosition s i op hd) := by
  unfold Step.texturePosition
  refine h.bind (h.lift _) fun id => h.bind h.lane fun l =>
    h.bind (h.ask (r := .sampleInfo ..) rfl) fun info => ?_
  exact h.bind (h.argWord32 _) fun index => h.pure _

theorem dimensions (h : Threads P s) (hd : Handle) : P (Step.dimensions s i hd) := by
  unfold Step.dimensions
  refine h.bind (h.lift _) fun id => h.bind h.lane fun l => h.bind (h.lift _) fun mip => ?_
  exact h.bind h.lane fun l => h.bind (h.ask (r := .resourceInfo ..) rfl) fun dims => h.pure _

theorem transcendental (h : Threads P s) : P (Step.transcendental s i op) := by
  unfold Step.transcendental
  refine h.bind (h.lift _) fun ⟨id, result⟩ => h.bind (h.arg _) fun input => ?_
  exact h.bind (h.ask (r := .math ..) rfl) fun answered => h.bind (h.lift _) fun answer => h.pure _

/-! ## Elements of resources -/

theorem loadSource (h : Threads P s) (hsrv : ∀ slot, P (srv s slot)) (huav : ∀ slot, P (uav s slot))
    (ref : ResourceRef) : P (Step.loadSource s i op ref) := by
  unfold Step.loadSource
  split
  · exact h.bind h.lane fun l => h.bind (h.lift _) fun address => h.bind (hsrv _) fun _ => h.pure _
  · exact h.bind (huav _) fun snapshot => h.bind h.lane fun l => h.bind (h.lift _) fun _ => h.pure _
  · exact h.throw _

theorem loadElement (h : Threads P s) {hd : Handle} (hsource : P (Step.loadSource s i op hd.ref)) :
    P (Step.loadElement s i op hd) := by
  unfold Step.loadElement
  refine h.bind (h.lift _) fun id => h.bind (h.lift _) fun ⟨ty, columns⟩ => ?_
  refine h.bind hsource fun ⟨snapshot, address⟩ => ?_
  dsimp only
  split
  · exact h.pure _
  · exact h.pure _

theorem storeElement (h : Threads P s) (huav : ∀ slot, P (uav s slot))
    (hset : ∀ slot snapshot, P (setUav slot snapshot)) (hd : Handle) : P (Step.storeElement s i op hd) := by
  unfold Step.storeElement
  refine h.guard fun _ => h.bind h.lane fun l => h.bind (h.lift _) fun values => ?_
  split
  · exact h.throw _
  · refine h.bind (huav _) fun snapshot => h.bind h.lane fun l => h.bind (h.lift _) fun address => ?_
    dsimp only
    split
    · exact h.bind (hset ..) fun _ => h.pure _
    · exact h.pure _

theorem atomicChange (h : Threads P s) (bits : Nat) : P (Step.atomicChange i op bits) := by
  unfold Step.atomicChange
  refine h.ite (h.bind (h.argWord32 _) fun number => ?_) ?_
  · dsimp only
    split
    · exact h.throw _
    · exact h.bind (h.arg _) fun _ => h.pure _
  · exact h.bind (h.arg _) fun _ => h.bind (h.arg _) fun _ => h.pure _

theorem updateElement (h : Threads P s) (huav : ∀ slot, P (uav s slot))
    (hset : ∀ slot snapshot, P (setUav slot snapshot)) (hd : Handle) : P (Step.updateElement s i op hd) := by
  unfold Step.updateElement
  refine h.guard fun _ => h.bind (h.lift _) fun ⟨id, result⟩ => h.bind (h.atomicChange _) fun f => ?_
  refine h.bind (huav _) fun snapshot => h.bind h.lane fun l => h.bind (h.lift _) fun address => ?_
  dsimp only
  split
  · exact h.bind (hset ..) fun _ => h.pure _
  · exact h.pure _

/-- An element is reached by what looks up snapshots and by what replaces them. -/
theorem element (h : Threads P s) (hsrv : ∀ slot, P (srv s slot)) (huav : ∀ slot, P (uav s slot))
    (hset : ∀ slot snapshot, P (setUav slot snapshot)) (hd : Handle) : P (Step.element s i op hd) := by
  unfold Step.element
  split
  · exact h.storeElement huav hset hd
  · exact h.storeElement huav hset hd
  · exact h.storeElement huav hset hd
  · exact h.updateElement huav hset hd
  · exact h.updateElement huav hset hd
  · exact h.loadElement (h.loadSource hsrv huav _)

/-- An element of a resource that is not read-write is only loaded. -/
theorem element_of_ne (h : Threads P s) (hsrv : ∀ slot, P (srv s slot)) {hd : Handle}
    (hcls : hd.ref.cls ≠ .uav) : P (Step.element s i op hd) := by
  have hstore : P (Step.storeElement s i op hd) := by
    unfold Step.storeElement
    rw [if_pos hcls]
    exact h.throw _
  have hupdate : P (Step.updateElement s i op hd) := by
    unfold Step.updateElement
    rw [if_pos hcls]
    exact h.throw _
  unfold Step.element
  split
  · exact hstore
  · exact hstore
  · exact hstore
  · exact hupdate
  · exact hupdate
  · refine h.loadElement ?_
    unfold Step.loadSource
    split
    · exact h.bind h.lane fun l => h.bind (h.lift _) fun address => h.bind (hsrv _) fun _ => h.pure _
    · next huav => exact absurd huav hcls
    · exact h.throw _

/-! ## Memory -/

theorem pointerArg (h : Threads P s) (hshared : P shared) : P (Step.pointerArg i) := by
  unfold Step.pointerArg
  refine h.bind (h.lift _) fun id => h.bind h.lane fun l => h.bind hshared fun m => ?_
  exact h.bind (h.lift _) fun p => h.pure _

theorem readThrough (h : Threads P s) (hshared : P shared) (p : Pointer) : P (Step.readThrough p) := by
  unfold Step.readThrough
  exact h.bind h.lane fun l => h.bind hshared fun m => h.lift _

theorem assigned (h : Threads P s) (id : Id) : P (Step.assigned id) := by
  unfold Step.assigned
  refine h.bind h.lane fun l => ?_
  split
  · exact h.pure _
  · exact h.throw _

/-- Memory is reached by what reads it, by what writes to it, and by what allocates and derives pointers. -/
theorem memory_of (h : Threads P s) (hshared : P shared) (hwrite : ∀ p bytes, P (writeThrough p bytes))
    (hoverwrite : ∀ id v, P (overwrite id v)) (halloca : i.op = .alloca → P (alloca i))
    (helement : i.op = .getElementPtr → P (elementPointer i)) : P (Step.memory i) := by
  have hstore : ∀ id p bytes, P (store id p bytes) := fun id p bytes => by
    unfold store
    refine h.bind (hwrite ..) fun _ => h.bind h.lane fun l => h.bind hshared fun m => ?_
    refine h.bind (h.assigned _) fun v => h.bind (h.lift _) fun after => h.ite (h.pure _) ?_
    refine h.bind (hoverwrite ..) fun _ => h.bind (h.assigned _) fun v => ?_
    exact h.bind (h.readThrough hshared _) fun bytes => h.pure _
  have hload : P (load i) := by
    unfold load
    refine h.bind (h.lift _) fun ⟨id, result⟩ => h.bind (h.pointerArg hshared) fun ⟨_, p⟩ => ?_
    exact h.bind (h.readThrough hshared p) fun bytes => h.pure _
  have hstoreArg : P (storeArg i) := by
    unfold storeArg
    refine h.bind (h.pointerArg hshared) fun ⟨id, p⟩ => h.bind (h.arg _) fun v => ?_
    exact h.bind (hstore ..) fun ⟨_, _⟩ => h.pure _
  unfold Step.memory
  split
  · next hop => exact halloca hop
  · exact hload
  · exact hload
  · exact hstoreArg
  · exact hstoreArg
  · next hop => exact helement hop
  · unfold atomic
    refine h.bind (h.pointerArg hshared) fun ⟨id, p⟩ => h.bind (h.arg _) fun operand => ?_
    refine h.bind (h.readThrough hshared p) fun bytes => ?_
    dsimp only
    split
    · exact h.throw _
    · refine h.bind (hstore ..) fun ⟨target, v⟩ => ?_
      dsimp only
      split
      · exact h.pure _
      · exact h.bind (hoverwrite ..) fun _ => h.pure _

/-- Where changes of the lane have the property, so do allocations and new pointers. -/
theorem memory (h : Threads P s) (hshared : P shared) (hmodify : ∀ f, P (modifyLane f))
    (hwrite : ∀ p bytes, P (writeThrough p bytes)) (hoverwrite : ∀ id v, P (overwrite id v)) :
    P (Step.memory i) := by
  refine h.memory_of hshared hwrite hoverwrite (fun _ => ?_) fun _ => ?_
  · unfold alloca
    refine h.bind (h.lift _) fun id => h.bind h.lane fun l => h.bind (h.lift _) fun ⟨v, memory⟩ => ?_
    exact h.bind (hmodify _) fun _ => h.pure _
  · unfold elementPointer
    refine h.bind (h.lift _) fun id => h.bind h.lane fun l => h.bind hshared fun m => ?_
    refine h.bind (h.lift _) fun p => h.bind (h.readThrough hshared p) fun bytes => ?_
    exact h.bind (hmodify _) fun _ => h.pure _

end Threads

namespace Inherits

/-! ## All instructions -/

theorem onHandle (h : Inherits P s i) (hop : i.intrinsic? = some op) : P (Step.onHandle s i op) := by
  unfold Step.onHandle
  refine h.bind (h.lift _) fun id => h.bind (h.handle id) fun hd => ?_
  split
  · exact h.dimensions hd
  · exact h.texturePosition hd
  · exact h.ite (h.texture hd) (h.element hop rfl hd)
  · exact h.element hop rfl hd
  · exact h.element hop rfl hd
  · exact h.element hop rfl hd
  · exact h.element hop rfl hd
  · exact h.element hop rfl hd
  · exact h.element hop rfl hd
  · exact h.element hop rfl hd
  · exact h.texture hd

theorem effect (h : Inherits P s i) (hop : i.intrinsic? = some op) : P (Step.effect s i op) := by
  unfold Step.effect
  refine h.bind h.lane fun l => ?_
  split
  all_goals with_reducible first
    | exact h.lift _
    | exact h.createHandleFromHeap
    | exact h.annotateHandle
    | exact h.loadConstants
    | exact h.renderTargetCount
    | exact h.renderTargetPosition
    | exact h.onHandle hop
    | exact h.throw _

theorem intrinsic (h : Inherits P s i) (hop : i.intrinsic? = some op) : P (Step.intrinsic s i op) := by
  unfold Step.intrinsic
  refine h.bind h.lane fun l => h.ite h.transcendental ?_
  split
  · exact h.lift _
  · exact h.lift _
  · exact h.lift _
  · exact h.effect hop

theorem call (h : Inherits P s i) (hcall : i.op = .call) : P (Step.call s i) := by
  unfold Step.call
  split
  · next op hcallee => exact h.intrinsic (by rw [Instr.intrinsic?, hcall, hcallee])
  · exact h.pure _
  · exact h.pure _
  · exact h.throw _
  · exact h.throw _

/-- Every instruction that stays within its block has the property. -/
theorem compute (h : Inherits P s i) : P (Step.compute s i) := by
  unfold Step.compute
  refine h.bind h.lane fun l => ?_
  split
  all_goals with_reducible first
    | exact h.lift _
    | exact h.pure _
    | exact h.throw _
    | exact h.memory
    | exact h.call ‹_›

/-- And so has every instruction. -/
theorem instruction (h : Inherits P s i) : P (Step.instruction s i) := by
  unfold Step.instruction
  exact h.ite (h.bind h.lane fun _ => h.lift _) (h.bind h.compute fun _ => h.pure _)

end Inherits

end Step

end Lockstep
