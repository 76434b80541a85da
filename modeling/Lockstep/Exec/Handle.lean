import Lockstep.Exec.Step

set_option autoImplicit false

/-! # Handles of resources

Making a handle from a declared range or from a descriptor heap, annotating it, and finding out
which resource it refers to. The first use of a resource by the reporting lane is a change, too: it
shows as created, and later uses as updates to the same value. -/

namespace Lockstep

/-- The resource behind a handle, with the properties of the handle. -/
structure Handle where
  ref : ResourceRef
  properties : Option HandleProperties
deriving Repr

namespace Handle

/-- The stride that the properties of a structured buffer set. -/
def structStride? (h : Handle) : Option UInt32 :=
  (h.properties.filter fun a => a.kind.isStructured).map (·.structStride)

end Handle

/-- The properties of two packed words. The first has the kind in its low byte and says in bit 12
    whether the resource is read-write; the second is the stride of a structured buffer, or the
    component type and the number of components of a typed resource. -/
def HandleProperties.ofPacked (first second : UInt32) : HandleProperties :=
  let kind := ResourceKind.ofNumber (first &&& 0xff).toNat
  let cls : ResourceClass := match kind with
    | .sampler => .sampler
    | .cBuffer => .cBuffer
    | _ => if first &&& 0x1000 ≠ 0 then .uav else .srv
  let structStride :=
    if kind.isStructured then second
    else if kind.isTyped then
      let component := ComponentKind.ofNumber (second &&& 0xff).toNat
      ((second &&& 0xff00) >>> 8) * component.elem.byteSize.toUInt32
    else 0
  { kind, cls, structStride }

namespace Lane

/-- The reference of a handle that was not made from a heap: the resource bound to the slot of the
    handle's variable, with what the program declares of it. The handle's properties give the kind
    of one that is not declared. -/
def boundReference (v : Variable) (id : Id) (properties : Option HandleProperties) (p : Program) :
    Except Fault ResourceRef :=
  match ResourceClass.ofElem? v.elem with
  | none => .error (.type (.notAHandle id v.elem))
  | some cls =>
    match v.slot with
    | none => .error (.program (.handleWithoutSlot v.name))
    | some slot =>
      match p.resourceAt? cls slot.register slot.space with
      | some d =>
        let shape : ResourceShape :=
          { kind := d.kind, sampleCount := d.sampleCount, component := d.component }
        .ok { cls, slot, shape, samplerMode := d.samplerMode }
      | none =>
        .ok { cls, slot, shape := { kind := (properties.map (·.kind)).getD .invalid } }

/-- The handle that an identifier holds, with its variable. -/
def handle (l : Lane) (p : Program) (id : Id) : Except Fault (Variable × Handle) := do
  match l.value? id with
  | none => throw (.unassignedRead id)
  | some v =>
    let properties := l.properties.get? id
    let ref ← match l.references.get? id with
      | some ref => pure ref
      | none => boundReference v id properties p
    return (v, { ref, properties })

end Lane

namespace Step

/-- Report the use of a resource. -/
def noteUse (s : Setting) (name : String) (ref : ResourceRef) : Step Unit := do
  let isShown := ref.cls == .srv || ref.cls == .uav
  if s.recording && isShown then
    let v := Variable.handle name ref.cls.elem ref.slot
    if (← lane).accessed.contains (ref.cls, ref.slot) then
      note (.updated v v)
    else
      modifyLane fun l => { l with accessed := (ref.cls, ref.slot) :: l.accessed }
      note (.created v)

/-- The handle that an identifier holds, whose use is reported. -/
def handle (s : Setting) (id : Id) : Step Handle := do
  let (v, h) ← (← lane).handle s.program id
  noteUse s v.name h.ref
  return h

end Step

namespace Lane

/-- The declaration of the resource that a new handle is for, and the operand that gives its
    register. -/
def declared (l : Lane) (p : Program) (i : Instr) (op : Intrinsic) (cls : ResourceClass) :
    Except Fault (Option ResourceDecl × UInt32) := do
  if op = .createHandle then
    let range ← l.argWord32 i 1
    return (p.resource? cls range, ← l.argWord32 i 2)
  else
    let lower ← l.argWord32 i 1
    let space ← l.argWord32 i 2
    return (p.resourceAt? cls lower space, ← l.argWord32 i 3)

/-- Make a handle of a declared resource. One that was set up under its name is taken as it is, and
    not reported. -/
def createHandle (l : Lane) (s : Setting) (i : Instr) (op : Intrinsic) : Except Fault Effect := do
  let id ← i.resultId
  let number ← l.argNat i 0
  match ResourceClass.ofNumber? number with
  | none => throw (.program (.unknownClass number))
  | some cls =>
    match ← l.declared s.program i op cls with
    | (none, _) => throw (.program (.undeclaredResource cls op))
    | (some decl, register) =>
      match s.bindings.resource? decl.name with
      | some v => return .assign id v false
      | none =>
        return .value id
          (.handle (i.resultName id) cls.elem (.ofRegister register decl.space))

/-- The packed words of properties: the first two members of the operand, or else its components. -/
def packedWords (v : Variable) : UInt32 × UInt32 :=
  match v.members with
  | a :: b :: _ => (a.word32 0, b.word32 0)
  | _ => (v.word32 0, v.word32 1)

end Lane

namespace Step

/-- Make a handle of a descriptor in a heap. Its value is what the host needs for a direct
    access. -/
def createHandleFromHeap (s : Setting) (i : Instr) : Step Effect := do
  let id ← i.resultId
  let index ← argWord32 i 0
  let ofSamplers ← argWord32 i 1
  let slot := Slot.ofHeap (if ofSamplers ≠ 0 then .samplers else .resources) index
  let ref : ResourceRef ← ask s (.reference slot)
  let access : DirectAccess ← ask s (.directAccess ref.cls.category slot)
  modifyLane fun l => { l with references := l.references.insert id ref }
  let v := Variable.handle (i.resultName id) ref.cls.elem slot
  let words := [access.store, access.byteOffset.toUInt64, access.byteSize.toUInt64]
  return .value id { v with value := Value.ofList words }

/-- Let an identifier refer to the resource that another refers to, if that one was made from a
    heap. -/
def copyReference (source id : Id) : Step Unit := do
  if let some ref := (← lane).references.get? source then
    modifyLane fun l => { l with references := l.references.insert id ref }

/-- Set the properties of a handle, which cannot get others later. -/
def setProperties (id : Id) (properties : HandleProperties) : Step Unit := do
  let existing := (← lane).properties.get? id
  modifyLane fun l => { l with properties := l.properties.insert id properties }
  if existing.any (· != properties) then throw (.program (.annotatedTwice id))

/-- Annotate a handle: the result is the same handle with properties. -/
def annotateHandle (i : Instr) : Step Effect := do
  let id ← i.resultId
  let source ← i.argId 0
  let v := (← arg i 0).withName (i.resultName id)
  copyReference source id
  let (first, second) := Lane.packedWords (← arg i 1)
  setProperties id (.ofPacked first second)
  return .assign id v false

end Step

end Lockstep
