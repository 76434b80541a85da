import Lockstep.Program.Opcode
import Lockstep.Program.Intrinsic
import Lockstep.Program.Operand

set_option autoImplicit false

/-! # Instructions -/

namespace Lockstep

/-- What a call instruction calls. -/
inductive Callee
  /-- An intrinsic of the shader model. -/
  | intrinsic (op : Intrinsic)
  /-- A marker for source-level debuggers, without effect. -/
  | marker
  /-- Another intrinsic without effect. -/
  | inert (name : String)
  /-- A function of the program. -/
  | function (index : Nat)
deriving DecidableEq, Repr, Inhabited

/-- An instruction. -/
structure Instr where
  op : Opcode
  /-- The type of the result, `void` when there is none. -/
  ty : Ty := .void
  result : Option Id := none
  /-- The result's name in the source text, if known. -/
  name : Option String := none
  args : List Operand := []
  callee : Option Callee := none
deriving Repr, Inhabited

namespace Instr

/-- The intrinsic that the instruction calls. -/
def intrinsic? (i : Instr) : Option Intrinsic :=
  match i.op, i.callee with
  | .call, some (.intrinsic op) => some op
  | _, _ => none

/-- Whether the instruction is stepped over without being executed. -/
def isNop (i : Instr) : Bool :=
  match i.op, i.callee with
  | .noOp, _ => true
  | .call, some .marker => true
  | .call, some (.inert _) => true
  | _, _ => false

/-- Whether subnormal single-precision operands and results count as zero. -/
def isFlushing (i : Instr) : Bool :=
  match i.op with
  | .call => i.intrinsic?.any Intrinsic.isFlushing
  | .fAdd | .fSub | .fMul | .fDiv | .fRem | .fpTrunc | .fpExt => true
  | _ => false

/-- Whether the instruction ends its block. -/
def isTerminator (i : Instr) : Bool := i.op.isTerminator

/-- What the result is called when it is shown. -/
def resultName (i : Instr) (id : Id) : String := i.name.getD ("_" ++ toString id.index)

/-- The instruction as text. -/
def text (i : Instr) : String :=
  let result := match i.result with
    | some id => id.text ++ " = "
    | none => ""
  let args := ", ".intercalate (i.args.map Operand.text)
  let call (ty name : String) := "call " ++ ty ++ " @" ++ name ++ "(" ++ args ++ ")"
  result ++ match i.callee with
    | some (.intrinsic op) => call i.ty.text ("dx.op." ++ nameOf op)
    | some .marker => call "void" "llvm.dbg"
    | some (.inert name) => call i.ty.text name
    | some (.function index) => call i.ty.text ("fn" ++ toString index)
    | none => nameOf i.op ++ " " ++ i.ty.text ++ " " ++ args

end Instr

end Lockstep
