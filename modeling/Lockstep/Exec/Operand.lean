import Lockstep.Lane.Basic

set_option autoImplicit false

/-! # Reading operands

The value of an operand in a lane. An instruction that flushes reads subnormal single-precision
components as zeros. -/

namespace Lockstep

namespace Constant

/-- The component of a float constant: its double, rounded to the width. -/
def floatBits (bits : Nat) (double : UInt64) : UInt64 :=
  if bits = 16 then ElemType.half.ofDouble double
  else if bits = 64 then double
  else ElemType.float.ofDouble double

/-- Put values in the place of members, which keep their names. -/
def replaceMembers : List Variable → List Variable → List Variable
  | m :: ms, v :: vs => v.withName m.name :: replaceMembers ms vs
  | ms, _ => ms

mutual

/-- The value of a constant. -/
def toVariable : Constant → Variable
  | .int bits value => .scalar "" (Ty.intElem bits) value
  | .float bits value => .scalar "" (Ty.floatElem bits) (floatBits bits value)
  | .vector elems =>
    let elem := match elems with
      | [] => .unknown
      | c :: _ => c.ty.elem
    .ofWords "" elem ((toVariables elems).map (·.get 0))
  | .aggregate ty members =>
    let shape := Variable.zeroed "" ty
    { shape with members := replaceMembers shape.members (toVariables members) }
  | .zero ty => .zeroed "" ty

/-- The values of several constants. -/
def toVariables : List Constant → List Variable
  | [] => []
  | c :: cs => c.toVariable :: toVariables cs

end

end Constant

namespace Lane

/-- The value of an operand. -/
def operand (l : Lane) (o : Operand) (flush : Bool) : Except Fault Variable :=
  let v : Except Fault Variable := match o with
    | .ref id =>
      match l.value? id with
      | some v => .ok v
      | none => .error (.unassignedRead id)
    | .const c => .ok c.toVariable
    | .undef ty => .ok (.zeroed Operand.undefinedName ty)
    | .block b => .error (.type (.blockAsValue b))
  v.map fun v => if flush then v.flushed else v

/-- The value of an instruction's operand. -/
def arg (l : Lane) (i : Instr) (index : Nat) : Except Fault Variable :=
  match i.args[index]? with
  | none => .error (.program (.missingOperand i.op index))
  | some o => l.operand o i.isFlushing

/-- The first component of an operand. -/
def argWord (l : Lane) (i : Instr) (index : Nat) : Except Fault UInt64 :=
  (l.arg i index).map (·.get 0)

/-- The low 32 bits of an operand's first component. -/
def argWord32 (l : Lane) (i : Instr) (index : Nat) : Except Fault UInt32 :=
  (l.arg i index).map (·.word32 0)

/-- The low 32 bits of an operand's first component, as a number. -/
def argNat (l : Lane) (i : Instr) (index : Nat) : Except Fault Nat :=
  (l.argWord32 i index).map UInt32.toNat

/-- An operand's first component in single precision. -/
def argSingle (l : Lane) (i : Instr) (index : Nat) : Except Fault UInt64 :=
  (l.arg i index).map fun v => v.elem.toSingle (v.get 0)

end Lane

namespace Instr

/-- Whether an operand is there and defined. -/
def hasArg (i : Instr) (index : Nat) : Bool := i.args[index]?.any fun o => !o.isUndefined

/-- The identifier that an operand names. -/
def argId (i : Instr) (index : Nat) : Except Fault Id :=
  match i.args[index]?.bind Operand.id? with
  | some id => .ok id
  | none => .error (.program (.operandNotId i.op index))

/-- The identifier of the result. -/
def resultId (i : Instr) : Except Fault Id :=
  match i.result with
  | some id => .ok id
  | none => .error (.program (.noResult i.op))

/-- The identifier of the result, and the zero of its type under its name. -/
def blank (i : Instr) : Except Fault (Id × Variable) :=
  i.resultId.map fun id => (id, .zeroed (i.resultName id) i.ty)

end Instr

namespace Lane

/-- An operand's low 32 bits when it is there and defined, else zero. -/
def argWord32OrZero (l : Lane) (i : Instr) (index : Nat) : Except Fault UInt32 :=
  if i.hasArg index then l.argWord32 i index else .ok 0

/-- An operand in single precision when it is there and defined, else zero. -/
def argSingleOrZero (l : Lane) (i : Instr) (index : Nat) : Except Fault UInt64 :=
  if i.hasArg index then l.argSingle i index else .ok 0

end Lane

/-! ## Outcomes -/

/-- What an instruction within a block asks to be done. -/
inductive Effect
  /-- Go on with the next instruction. -/
  | proceed
  /-- Assign a value and go on; the change is reported if `report` says so. -/
  | assign (id : Id) (value : Variable) (report : Bool)
  /-- Stop the lane. -/
  | kill
deriving Repr, Inhabited

/-- A result that is reported. -/
def Effect.value (id : Id) (v : Variable) : Effect := .assign id v true

/-- What an instruction asks to be done. -/
inductive Outcome
  /-- What any instruction may ask. -/
  | effect (e : Effect)
  /-- Go on at the start of a block. -/
  | jump (block : Nat)
  /-- Leave the function. -/
  | leave
deriving Repr, Inhabited

end Lockstep
