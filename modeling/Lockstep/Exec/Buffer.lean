import Lockstep.Exec.Handle
import Lockstep.View.Access

set_option autoImplicit false

/-! # Buffers, read-write textures and constant blocks

Accesses that are made on the snapshots of resources. What is unbound or out of bounds reads as
zero, and a store to it is dropped. The host is asked for a snapshot at the first access to its
slot. -/

namespace Lockstep

namespace Intrinsic

/-- The operand where the address of a resource access begins. -/
def addressArg : Intrinsic → Nat
  | .textureLoad | .atomicBinOp => 2
  | _ => 1

/-- The operand where the values of a resource store begin. -/
def valueArg : Intrinsic → Nat
  | .textureStore => 4
  | _ => 3

end Intrinsic

namespace AtomicKind

/-- What a resource atomic combines the old value and the operand to. -/
def combine (kind : AtomicKind) (bits : Nat) (old operand : UInt64) : UInt64 :=
  match kind with
  | .add => IntOp.add.apply bits old operand
  | .and => IntOp.and.apply bits old operand
  | .or => IntOp.or.apply bits old operand
  | .xor => IntOp.xor.apply bits old operand
  | .iMin => IntOp.sMin.apply bits old operand
  | .iMax => IntOp.sMax.apply bits old operand
  | .uMin => IntOp.uMin.apply bits old operand
  | .uMax => IntOp.uMax.apply bits old operand
  | .exchange => operand

end AtomicKind

namespace Instr

/-- The types of the values that a load gives, from the members of the result; the last member is
    the status. -/
def loadedTypes (i : Instr) (op : Intrinsic) : Except Fault (Ty × Nat) :=
  match i.ty.structMembers? with
  | some (first :: _ :: rest) => .ok (first, min (rest.length + 1) 4)
  | _ => .error (.program (.resultNotStruct op))

end Instr

namespace Lane

/-- The address of an element: coordinates of a texture, otherwise an index and a byte offset. -/
def address (l : Lane) (i : Instr) (start : Nat) (isTexture : Bool) :
    Except Fault ElementAddress := do
  let first ← l.argWord32OrZero i start
  let second ← l.argWord32OrZero i (start + 1)
  if isTexture then return .texel first second (← l.argWord32OrZero i (start + 2))
  else return .buffer first second.toUInt64

/-- The operands of a store that are there and defined. -/
def storedValues (l : Lane) (i : Instr) (start : Nat) :
    Except Fault (Vector (Option Variable) 4) := do
  let value (c : Nat) : Except Fault (Option Variable) :=
    if i.hasArg (start + c) then (l.arg i (start + c)).map some else .ok none
  return #v[← value 0, ← value 1, ← value 2, ← value 3]

/-- The registers of a constant block are rows of sixteen bytes; the last may be short. -/
def registerCount (data : Bytes) : Nat := (data.length + 15) / 16

/-- The components of a register, each the little-endian word of its bytes. -/
def registerWord (data : Bytes) (register c width : Nat) : UInt64 :=
  Bytes.toWord ((data.drop (register * 16 + c * width)).take (min width 8))

end Lane

namespace Step

/-- Load a register of a constant block. -/
def loadConstants (s : Setting) (i : Instr) : Step Effect := do
  let id ← i.resultId
  let h ← handle s (← i.argId 0)
  if h.ref.cls ≠ .cBuffer then throw (.type .notAConstantBlock)
  match i.ty.structMembers?.bind List.head? with
  | none => throw (.program (.resultNotStruct .cBufferLoadLegacy))
  | some elem =>
    let width := max elem.byteSize 1
    let columns := max 1 (min (16 / width) 4)
    let result := Variable.row (i.resultName id) elem.elem columns.toUInt8
    let register := (← argWord32 i 1).toNat
    match s.bindings.constantBlock? h.ref.slot with
    | none => return .value id result
    | some block =>
      if register ≥ Lane.registerCount block.data then return .value id result
      else
        return .value id (result.fill fun c => Lane.registerWord block.data register c width)

/-- The snapshot that a load reads, and the address of the element. A read-only resource that is
    read here is a buffer. -/
def loadSource (s : Setting) (i : Instr) (op : Intrinsic) (ref : ResourceRef) :
    Step (Snapshot × ElementAddress) := do
  match ref.cls with
  | .srv =>
    let address ← (← lane).address i op.addressArg false
    return (← srv s ref.slot, address)
  | .uav =>
    let snapshot ← uav s ref.slot
    return (snapshot, ← (← lane).address i op.addressArg snapshot.isTexture)
  | cls => throw (.type (.onHandle op cls))

/-- Load an element. -/
def loadElement (s : Setting) (i : Instr) (op : Intrinsic) (h : Handle) : Step Effect := do
  let id ← i.resultId
  let (ty, columns) ← i.loadedTypes op
  let result := Variable.row (i.resultName id) ty.elem columns.toUInt8
  let (snapshot, address) ← loadSource s i op h.ref
  let access : ViewAccess :=
    { structStride := h.structStride?, elem := ty.elem, columns := columns.toUInt32, address }
  match snapshot.load? access with
  | some comps => return .value id (result.fill fun c => comps[c]?.getD 0)
  | none => return .value id result

/-- Store an element. The element type is that of the first value; the element ends at the last
    one. -/
def storeElement (s : Setting) (i : Instr) (op : Intrinsic) (h : Handle) : Step Effect := do
  if h.ref.cls ≠ .uav then throw (.type (.onReadOnly op))
  let values ← (← lane).storedValues i op.valueArg
  match values.toList.findSome? id with
  | none => throw (.program (.noValue op))
  | some v =>
    let columns := 4 - (values.toList.reverse.takeWhile Option.isNone).length
    let snapshot ← uav s h.ref.slot
    let address ← (← lane).address i op.addressArg snapshot.isTexture
    let access : ViewAccess :=
      { structStride := h.structStride?, elem := v.elem, columns := columns.toUInt32, address }
    if let some stored := snapshot.store? access values then setUav h.ref.slot stored
    return .proceed

/-- The function by which an atomic changes a component. -/
def atomicChange (i : Instr) (op : Intrinsic) (bits : Nat) : Step (UInt64 → UInt64) := do
  if op = .atomicBinOp then
    let number := (← argWord32 i 1).toNat
    match AtomicKind.ofNumber? number with
    | none => throw (.program (.unknownAtomic number))
    | some kind =>
      let operand := (← arg i 5).get 0
      return fun old => kind.combine bits old operand
  else
    let replacement := (← arg i 5).get 0
    let expected := (← arg i 4).get 0
    return fun old => if old = expected then replacement else old

/-- Update the first component of an element; the result is the old value. -/
def updateElement (s : Setting) (i : Instr) (op : Intrinsic) (h : Handle) : Step Effect := do
  if h.ref.cls ≠ .uav then throw (.type (.notReadWrite op))
  let (id, result) ← i.blank
  let change ← atomicChange i op result.elem.bits
  let snapshot ← uav s h.ref.slot
  let address ← (← lane).address i op.addressArg snapshot.isTexture
  let access : ViewAccess :=
    { structStride := h.structStride?, elem := result.elem, columns := 1, address }
  match snapshot.update? access change with
  | some (old, updated) =>
    setUav h.ref.slot updated
    return .value id (result.set 0 old)
  | none => return .value id result

end Step

end Lockstep
