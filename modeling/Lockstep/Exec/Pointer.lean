import Lockstep.Exec.Step

set_option autoImplicit false

/-! # Memory through pointers

Allocation, loads, stores, derived pointers and atomic updates. The lane's own memory comes before
the memory of global variables. A store also refreshes the values of the allocation and of the
pointer, so that both show the new content. -/

namespace Lockstep

namespace Opcode

/-- What an atomic update combines the old value and the operand to. -/
def combine? (op : Opcode) (bits : Nat) (old operand : UInt64) : Option UInt64 :=
  match op with
  | .atomicExchange => some operand
  | .atomicNand => some (~~~(old &&& operand) &&& mask bits)
  | .atomicAdd => some (IntOp.add.apply bits old operand)
  | .atomicSub => some (IntOp.sub.apply bits old operand)
  | .atomicAnd => some (IntOp.and.apply bits old operand)
  | .atomicOr => some (IntOp.or.apply bits old operand)
  | .atomicXor => some (IntOp.xor.apply bits old operand)
  | .atomicMax => some (IntOp.sMax.apply bits old operand)
  | .atomicMin => some (IntOp.sMin.apply bits old operand)
  | .atomicUMax => some (IntOp.uMax.apply bits old operand)
  | .atomicUMin => some (IntOp.uMin.apply bits old operand)
  | _ => none

end Opcode

namespace Lane

/-- The memory that has an allocation: the lane's own, or else the shared one. -/
def memoryOf (l : Lane) (shared : Memory) (base : Id) : Memory :=
  if l.memory.hasAllocation base then l.memory else shared

/-- The pointer that an identifier holds. -/
def resolve (l : Lane) (shared : Memory) (id : Id) : Except Fault Pointer :=
  match l.memory.pointer? id <|> shared.pointer? id with
  | some p => .ok p
  | none => .error (.memory (.notAPointer id))

/-- The bytes that a pointer addresses. -/
def readThrough (l : Lane) (shared : Memory) (p : Pointer) : Except Fault Bytes :=
  (l.memoryOf shared p.base).read p

/-! ## Derived pointers -/

/-- An offset as a signed 64-bit word, which it has to fit. -/
def checkedOffset (offset : Int) : Except Fault Int :=
  if Int64.minValue.toInt ≤ offset ∧ offset ≤ Int64.maxValue.toInt then .ok offset
  else .error (.memory .offsetOverflow)

/-- A size as a signed 64-bit word. -/
def signedSize (size : Nat) : Int := (size.toUInt64.toInt64).toInt

/-- Add a number of elements of some size to an offset. -/
def advance (offset index : Int) (size : Nat) : Except Fault Int := do
  checkedOffset ((← checkedOffset (index * signedSize size)) + offset)

/-- One step into a type: the offset and the type of what an index selects. -/
def selectElement (offset : Int) (ty : Ty) (index : Int) (constIndex : Bool) :
    Except Fault (Int × Ty) :=
  match ty with
  | .struct _ members =>
    if !constIndex then .error (.program .memberIndexNotConstant)
    else
      match if index < 0 then none else members[index.toNat]? with
      | none => .error (.memory (.memberOutOfRange index))
      | some member =>
        let size := (members.take index.toNat).foldl (fun n t => n + t.byteSize) 0
        (checkedOffset (offset + signedSize (size % UInt64.size))).map (·, member)
  | .array elem _ => (advance offset index elem.byteSize).map (·, elem)
  | .vector elem _ => (advance offset index elem.byteSize).map (·, elem)
  | _ => .error (.unsupportedOpcode .getElementPtr)

/-- Go into a type along the operands from `index` on. -/
def selectPath (l : Lane) (i : Instr) (offset : Int) (ty : Ty) :
    (index count : Nat) → Except Fault (Int × Ty)
  | _, 0 => .ok (offset, ty)
  | index, n + 1 => do
    let pick := ((← l.arg i index).intComp 0).toInt
    let (offset, ty) ← selectElement offset ty pick (i.args[index]?.any Operand.isConst)
    l.selectPath i offset ty (index + 1) n

/-- The pointer to a value of a type, if it lies inside the allocation. -/
def placeAt (base : Id) (allocated : Nat) (offset : Int) (ty : Ty) : Except Fault Pointer :=
  let size := ty.byteSize
  if 0 ≤ offset ∧ offset + size ≤ allocated then
    .ok { base, offset := offset.toNat, size, pointee := ty }
  else .error (.memory (.elementOutside offset size base allocated))

/-- The pointer that an instruction derives from another. The first index counts whole values, the
    others select elements. -/
def derive (l : Lane) (shared : Memory) (i : Instr) : Except Fault Pointer := do
  let base ← l.resolve shared (← i.argId 0)
  if i.args.length < 2 then throw (.program .gepWithoutIndices)
  let first := ((← l.arg i 1).intComp 0).toInt
  let start ← advance (signedSize base.offset) first base.pointee.byteSize
  let (offset, ty) ← l.selectPath i start base.pointee 2 (i.args.length - 2)
  if let some declared := i.ty.pointee? then
    if declared.byteSize ≠ ty.byteSize then throw (.type (.gepResult ty declared))
  match (l.memoryOf shared base.base).allocation? base.base with
  | none => throw (.memory (.noAllocation base.base))
  | some a => placeAt base.base a.bytes.length offset ty

end Lane

/-! ## Instructions -/

namespace Step

/-- The pointer that an instruction's first operand holds, with that operand. -/
def pointerArg (i : Instr) : Step (Id × Pointer) := do
  let id ← i.argId 0
  return (id, ← (← lane).resolve (← shared) id)

/-- The bytes that a pointer addresses. -/
def readThrough (p : Pointer) : Step Bytes := do
  return ← (← lane).readThrough (← shared) p

/-- The value that an identifier was assigned. -/
def assigned (id : Id) : Step Variable := do
  match (← lane).value? id with
  | some v => return v
  | none => throw (.unassignedRead id)

/-- Write bytes to the memory that a pointer leads to. -/
def writeThrough (p : Pointer) (bytes : Bytes) : Step Unit := do
  if (← lane).memory.hasAllocation p.base then
    let memory ← (← lane).memory.write p bytes
    modifyLane fun l => { l with memory }
  else
    let memory ← (← shared).write p bytes
    modifyWorld fun w => { w with memory }

/-- Replace the value of an identifier and report it as an update. -/
def overwrite (id : Id) (after : Variable) : Step Unit := do
  let l ← lane
  if l.hasPlace id then
    note (.updated ((l.value? id).getD .empty) after)
    modifyLane fun l => l.assign id after

/-- Write bytes through a pointer and refresh the value of the allocation. What is left to be
    assigned is the new value of the pointer itself. -/
def store (id : Id) (p : Pointer) (bytes : Bytes) : Step (Id × Variable) := do
  writeThrough p bytes
  let after ← ((← lane).memoryOf (← shared) p.base).reload p.base (← assigned p.base)
  if id = p.base then return (p.base, after)
  overwrite p.base after
  let v ← assigned id
  return (id, v.ofBytes (← readThrough p))

/-- Allocate on the stack. -/
def alloca (i : Instr) : Step Effect := do
  let id ← i.resultId
  let (v, memory) ← (← lane).memory.allocateFor i.ty id false (i.resultName id)
  modifyLane fun l => { l with memory }
  return .value id v

/-- Load through a pointer. -/
def load (i : Instr) : Step Effect := do
  let (id, result) ← i.blank
  let (_, p) ← pointerArg i
  return .value id (result.ofBytes (← readThrough p))

/-- Store through a pointer. -/
def storeArg (i : Instr) : Step Effect := do
  let (id, p) ← pointerArg i
  let (target, v) ← store id p (← arg i 1).toBytes
  return .value target v

/-- Derive a pointer, which shows the value that it points to. -/
def elementPointer (i : Instr) : Step Effect := do
  let id ← i.resultId
  let p ← (← lane).derive (← shared) i
  let v := (Variable.zeroed (i.resultName id) p.pointee).ofBytes (← readThrough p)
  modifyLane fun l => { l with memory := l.memory.addPointer id p }
  return .value id v

/-- Update memory atomically; the result, if there is one, is the old value. -/
def atomic (i : Instr) : Step Effect := do
  let (id, p) ← pointerArg i
  let operand ← arg i 1
  let old := (Variable.zeroed "" p.pointee).ofBytes (← readThrough p)
  match i.op.combine? operand.elem.bits (old.get 0) (operand.get 0) with
  | none => throw (.unsupportedOpcode i.op)
  | some bits =>
    let (target, v) ← store id p (old.set 0 bits).toBytes
    match i.result with
    | none => return .value target v
    | some result =>
      overwrite target v
      return .value result (old.withName (i.resultName result))

/-- Instructions on memory. -/
def memory (i : Instr) : Step Effect :=
  match i.op with
  | .alloca => alloca i
  | .load | .loadAtomic => load i
  | .store | .storeAtomic => storeArg i
  | .getElementPtr => elementPointer i
  | _ => atomic i

end Step

end Lockstep
