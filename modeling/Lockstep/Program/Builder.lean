import Lockstep.Program.Basic

set_option autoImplicit false

/-! # Building programs

A `ProgramBuilder` hands out identifiers and collects functions and declarations; a
`FunctionBuilder` collects the blocks of one function in any order and lays them out in the order of
their creation. A branch records itself as a predecessor of its targets. -/

namespace Lockstep

/-- A program in the making. -/
structure ProgramBuilder where
  stage : Stage
  functions : Array Function := #[]
  entry : Nat := 0
  globals : Array GlobalDecl := #[]
  resources : Array ResourceDecl := #[]
  inputs : Array SignatureElement := #[]
  outputs : Array SignatureElement := #[]
  nextId : Nat := 0
deriving Repr, Inhabited

namespace ProgramBuilder

/-- Hand out a fresh identifier. -/
def allocId (b : ProgramBuilder) : Id × ProgramBuilder :=
  (⟨b.nextId⟩, { b with nextId := b.nextId + 1 })

/-- Declare a global variable that holds a value of a type. -/
def addGlobal (b : ProgramBuilder) (name : String) (pointee : Ty) (init : Option Constant) :
    Id × ProgramBuilder :=
  let (id, b) := b.allocId
  (id, { b with globals := b.globals.push { id, name, ty := .pointer pointee .stack, init } })

/-- Declare a range of resources. -/
def addResource (b : ProgramBuilder) (decl : ResourceDecl) : ProgramBuilder :=
  { b with resources := b.resources.push decl }

/-- Add an input element and give its number. -/
def addInput (b : ProgramBuilder) (e : SignatureElement) : Nat × ProgramBuilder :=
  (b.inputs.size, { b with inputs := b.inputs.push e })

/-- Add an output element and give its number. -/
def addOutput (b : ProgramBuilder) (e : SignatureElement) : Nat × ProgramBuilder :=
  (b.outputs.size, { b with outputs := b.outputs.push e })

/-- Choose the function where execution starts. -/
def setEntry (b : ProgramBuilder) (index : Nat) : ProgramBuilder := { b with entry := index }

/-- The program. -/
def build (b : ProgramBuilder) : Program :=
  { stage := b.stage, functions := b.functions, entry := b.entry, globals := b.globals.toList,
    resources := b.resources.toList, inputs := b.inputs.toList, outputs := b.outputs.toList,
    idCount := b.nextId }

end ProgramBuilder

/-! ## Functions -/

/-- A block in the making. -/
structure OpenBlock where
  preds : List Nat := []
  instrs : Array Instr := #[]
deriving Repr, Inhabited

/-- A function in the making, with the program it will belong to. -/
structure FunctionBuilder where
  program : ProgramBuilder
  name : String
  blocks : Array OpenBlock := #[{}]
  current : Nat := 0
deriving Repr, Inhabited

/-- Start a function; it has one empty block, into which instructions go at first. -/
def ProgramBuilder.function (b : ProgramBuilder) (name : String) : FunctionBuilder :=
  { program := b, name }

namespace FunctionBuilder

/-- Add an empty block and give its number. -/
def createBlock (b : FunctionBuilder) : Nat × FunctionBuilder :=
  (b.blocks.size, { b with blocks := b.blocks.push {} })

/-- Choose the block into which instructions go. -/
def switchTo (b : FunctionBuilder) (block : Nat) : FunctionBuilder := { b with current := block }

/-- Hand out a fresh identifier. -/
def allocId (b : FunctionBuilder) : Id × FunctionBuilder :=
  let (id, program) := b.program.allocId
  (id, { b with program })

/-- Append an instruction to the current block. -/
def emit (b : FunctionBuilder) (i : Instr) : FunctionBuilder :=
  { b with blocks := b.blocks.modify b.current fun blk => { blk with instrs := blk.instrs.push i } }

/-- Append an instruction with a fresh result, given the instruction of that result. -/
def emitResult (b : FunctionBuilder) (instr : Id → Instr) : Id × FunctionBuilder :=
  let (id, b) := b.allocId
  (id, b.emit (instr id))

/-- Append an instruction with a result. -/
def emitValue (b : FunctionBuilder) (op : Opcode) (ty : Ty) (args : List Operand) :
    Id × FunctionBuilder :=
  b.emitResult fun id => { op, ty, result := some id, args }

/-- Append an instruction of two operands. -/
def binary (b : FunctionBuilder) (op : Opcode) (ty : Ty) (lhs rhs : Operand) :
    Id × FunctionBuilder :=
  b.emitValue op ty [lhs, rhs]

/-- Append an instruction of one operand. -/
def unary (b : FunctionBuilder) (op : Opcode) (ty : Ty) (value : Operand) : Id × FunctionBuilder :=
  b.emitValue op ty [value]

/-- Append a call of an intrinsic with a result. -/
def intrinsic (b : FunctionBuilder) (op : Intrinsic) (ty : Ty) (args : List Operand) :
    Id × FunctionBuilder :=
  b.emitResult fun id =>
    { op := .call, ty, result := some id, args, callee := some (.intrinsic op) }

/-- Append a call of an intrinsic without a result. -/
def intrinsicVoid (b : FunctionBuilder) (op : Intrinsic) (args : List Operand) : FunctionBuilder :=
  b.emit { op := .call, args, callee := some (.intrinsic op) }

/-- Append a marker that execution steps over. -/
def marker (b : FunctionBuilder) : FunctionBuilder := b.emit { op := .call, callee := some .marker }

/-- Append a choice between two values. -/
def select (b : FunctionBuilder) (ty : Ty) (cond ifTrue ifFalse : Operand) : Id × FunctionBuilder :=
  b.emitValue .select ty [ifTrue, ifFalse, cond]

/-- Append a phi node of values and the blocks they come from. -/
def phi (b : FunctionBuilder) (ty : Ty) (incoming : List (Operand × Nat)) : Id × FunctionBuilder :=
  b.emitValue .phi ty (incoming.flatMap fun p => [p.1, .block p.2])

/-- Append an allocation of a value on the stack. -/
def alloca (b : FunctionBuilder) (pointee : Ty) : Id × FunctionBuilder :=
  b.emitValue .alloca (.pointer pointee .stack) []

/-- Append a load. -/
def load (b : FunctionBuilder) (ty : Ty) (ptr : Id) : Id × FunctionBuilder :=
  b.emitValue .load ty [.ref ptr]

/-- Append a store. -/
def store (b : FunctionBuilder) (ptr : Id) (value : Operand) : FunctionBuilder :=
  b.emit { op := .store, args := [.ref ptr, value] }

/-- Append a pointer derived from another. -/
def gep (b : FunctionBuilder) (pointee : Ty) (base : Id) (indices : List Operand) :
    Id × FunctionBuilder :=
  b.emitValue .getElementPtr (.pointer pointee .stack) (.ref base :: indices)

/-- Record the current block as a predecessor of another, once. -/
def addPred (b : FunctionBuilder) (target : Nat) : FunctionBuilder :=
  { b with blocks := b.blocks.modify target fun blk =>
      if blk.preds.contains b.current then blk
      else { blk with preds := blk.preds ++ [b.current] } }

/-- Append a terminator that leads to given blocks. -/
def terminate (b : FunctionBuilder) (targets : List Nat) (op : Opcode) (args : List Operand) :
    FunctionBuilder :=
  (targets.foldl addPred b).emit { op, args }

/-- End the block by a jump. -/
def br (b : FunctionBuilder) (target : Nat) : FunctionBuilder :=
  b.terminate [target] .br [.block target]

/-- End the block by a jump to one of two blocks. -/
def condBr (b : FunctionBuilder) (cond : Operand) (ifTrue ifFalse : Nat) : FunctionBuilder :=
  b.terminate [ifTrue, ifFalse] .br [.block ifTrue, .block ifFalse, cond]

/-- End the block by a choice among cases. -/
def switch (b : FunctionBuilder) (value : Operand) (default : Nat)
    (cases : List (Constant × Nat)) : FunctionBuilder :=
  b.terminate (default :: cases.map (·.2)) .switch
    (value :: .block default :: cases.flatMap fun c => [.const c.1, .block c.2])

/-- End the block by a return. -/
def ret (b : FunctionBuilder) : FunctionBuilder := b.terminate [] .ret []

/-- End a block that is never left. -/
def unreachable (b : FunctionBuilder) : FunctionBuilder := b.terminate [] .unreachable []

/-- Lay the blocks out in the order of their creation and add the function to the program. -/
def finish (b : FunctionBuilder) : Nat × ProgramBuilder :=
  let f : Function :=
    { name := b.name, blocks := b.blocks.map fun blk => { preds := blk.preds },
      instrs := b.blocks.flatMap OpenBlock.instrs }
  (b.program.functions.size, { b.program with functions := b.program.functions.push f })

end FunctionBuilder

end Lockstep
