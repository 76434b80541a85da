import Lockstep.Exec.Step

set_option autoImplicit false

/-! # Signature and builtin values

Reading an input element, writing an output element, and reading the indices that the shader model
gives to a lane. A position in an element is a row and a column; an element without rows counts as
one row. -/

namespace Lockstep

namespace Variable

/-- The component at a row and a column, if the variable has it. -/
def componentAt? (v : Variable) (row column : Nat) : Option Nat :=
  if row < max v.rows.toNat 1 ∧ column < v.columns.toNat then some (row * v.columns.toNat + column)
  else none

end Variable

/-- The builtin value that an intrinsic reads. -/
def Intrinsic.builtin? : Intrinsic → Option Builtin
  | .threadId => some .dispatchThreadIndex
  | .groupId => some .groupIndex
  | .threadIdInGroup => some .groupThreadIndex
  | .flattenedThreadIdInGroup => some .groupFlatIndex
  | _ => none

namespace Lane

/-- The element of a signature and its component, for an element number, a row and a column. -/
def signatureComponent (side : SignatureSide) (v : Variable) (element row column : Nat) :
    Except Fault (Variable × Nat) :=
  match v.members[element]? with
  | none => .error (.program (.signatureElement side element))
  | some e =>
    match e.componentAt? row column with
    | none =>
      .error (.program
        (.signaturePosition side e.name row column e.rows.toNat e.columns.toNat))
    | some c => .ok (e, c)

/-- Read a component of an input element. -/
def loadInput (l : Lane) (i : Instr) : Except Fault Effect := do
  let (id, result) ← i.blank
  let element ← l.argNat i 0
  let row ← l.argNat i 1
  let column ← l.argNat i 2
  let (e, c) ← signatureComponent .input l.input element row column
  return .value id (result.setIntComp 0 (e.get c))

/-- Write a component of an output element. Only the reporting lane has output. -/
def storeOutput (l : Lane) (i : Instr) (recording : Bool) : Except Fault Effect := do
  let element ← l.argNat i 0
  let row ← l.argNat i 1
  let column ← l.argNat i 2
  let v ← l.arg i 3
  if !recording then return .proceed
  let (e, c) ← signatureComponent .output l.output element row column
  let members := l.output.members.set element (e.setIntComp c (v.get 0))
  return .value l.outputId { l.output with members }

/-- Read a builtin value; the lane's own come before those that all lanes share. -/
def readBuiltin (l : Lane) (b : Bindings) (i : Instr) (op : Intrinsic) (builtin : Builtin) :
    Except Fault Effect := do
  let (id, result) ← i.blank
  let component ← if op = .flattenedThreadIdInGroup then pure 0 else l.argNat i 0
  match l.builtins.get? builtin <|> b.builtins.get? builtin with
  | none => throw (.program (.builtinMissing builtin))
  | some source =>
    if component ≥ 3 then throw (.program (.builtinComponent op component))
    return .value id (result.setIntComp 0 (source.get component))

end Lane

end Lockstep
