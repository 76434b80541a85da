import Lockstep.Program.Instr
import Lockstep.Variable

set_option autoImplicit false

/-! # Programs

A function holds its instructions in one sequence. A block ends at its terminator, and the next
block starts at the following instruction; each block lists the blocks that lead to it. -/

namespace Lockstep

/-- The pipeline stage that a program runs in. -/
inductive Stage
  | vertex | hull | domain | geometry | pixel | compute
deriving DecidableEq, Repr, Inhabited

instance : Named Stage where
  listing := [(.vertex, "Vertex"), (.hull, "Hull"), (.domain, "Domain"), (.geometry, "Geometry"),
    (.pixel, "Pixel"), (.compute, "Compute")]

/-- A basic block, known by the blocks that lead to it. -/
structure Block where
  preds : List Nat := []
deriving Repr, Inhabited

/-- A function of a program. -/
structure Function where
  name : String
  blocks : Array Block := #[]
  instrs : Array Instr := #[]
  /-- Declared without a body. -/
  isExternal : Bool := false
deriving Repr, Inhabited

namespace Function

/-- The links of a list of blocks that are numbered from `target` on. -/
def linksFrom (target : Nat) : List Block → List (Nat × Nat)
  | [] => []
  | b :: bs => b.preds.map (·, target) ++ linksFrom (target + 1) bs

/-- The links of the flow graph, from block to block. -/
def links (f : Function) : List (Nat × Nat) := linksFrom 0 f.blocks.toList

/-- The lines of the blocks' instructions; `opened` says that the heading of block `block` is
    out. -/
def bodyLines (f : Function) : (block : Nat) → (opened : Bool) → List Instr → List String
  | _, _, [] => []
  | block, opened, i :: rest =>
    let preds := (f.blocks[block]?.map Block.preds).getD []
    let heading :=
      if opened then []
      else ("bb" ++ toString block ++ ":") ::
        (if preds.isEmpty then []
         else ["    ; preds:" ++ String.join (preds.map fun p => " bb" ++ toString p)])
    heading ++ ("    " ++ i.text) ::
      (if i.isTerminator then f.bodyLines (block + 1) false rest else f.bodyLines block true rest)

/-- The function as text. -/
def text (f : Function) : String :=
  -- the braces of the body by their codes, as in `Constant.text`
  let lines := ("define @" ++ f.name ++ " \x7b") :: f.bodyLines 0 false f.instrs.toList ++ ["\x7d"]
  String.join (lines.map (· ++ "\n"))

end Function

/-- A variable of the whole program, addressed through an identifier of pointer type. -/
structure GlobalDecl where
  id : Id
  name : String
  ty : Ty
  init : Option Constant := none
deriving Repr, Inhabited

/-- A declared range of resources. -/
structure ResourceDecl where
  name : String
  cls : ResourceClass
  /-- The number of the range within its class. -/
  rangeId : UInt32 := 0
  registerBase : UInt32 := 0
  /-- The length of the range; the largest number stands for no bound. -/
  registerCount : UInt32 := 1
  space : UInt32 := 0
  kind : ResourceKind := .invalid
  component : ComponentKind := .invalid
  sampleCount : UInt32 := 0
  samplerMode : SamplerMode := .standard
  /-- The stride of a structured buffer's elements. -/
  structStride : UInt32 := 0
deriving Repr, Inhabited

/-- Whether a register belongs to the range. -/
def ResourceDecl.containsRegister (d : ResourceDecl) (register : UInt32) : Bool :=
  d.registerBase ≤ register &&
    (d.registerCount == 0xffffffff || register - d.registerBase < d.registerCount)

/-- An element of the entry point's signature. -/
structure SignatureElement where
  name : String
  elem : ElemType
  rows : UInt8
  columns : UInt8
deriving Repr, Inhabited

/-- A program. -/
structure Program where
  stage : Stage
  functions : Array Function := #[]
  entry : Nat := 0
  globals : List GlobalDecl := []
  resources : List ResourceDecl := []
  inputs : List SignatureElement := []
  outputs : List SignatureElement := []
  /-- One more than the largest identifier in use. -/
  idCount : Nat := 0
deriving Repr, Inhabited

namespace Program

/-- The function where execution starts. -/
def entryFunction? (p : Program) : Option Function := p.functions[p.entry]?

/-- The declaration of a class with a range number. -/
def resource? (p : Program) (cls : ResourceClass) (rangeId : UInt32) : Option ResourceDecl :=
  p.resources.find? fun r => r.cls == cls && r.rangeId == rangeId

/-- The declaration of a class whose range holds a register. -/
def resourceAt? (p : Program) (cls : ResourceClass) (register space : UInt32) :
    Option ResourceDecl :=
  p.resources.find? fun r => r.cls == cls && r.space == space && r.containsRegister register

/-- The global variable of an identifier. -/
def global? (p : Program) (id : Id) : Option GlobalDecl := p.globals.find? (·.id == id)

end Program

end Lockstep
