import Lockstep.Program.Basic

set_option autoImplicit false

/-! # Faults

Why a session, a step or an analysis fails. A fault is its cause; `Fault.message` is the one place
where the wording is. Accesses to resources that are unbound or out of bounds are no faults: they
read zeros and drop stores. -/

namespace Lockstep

/-- A place in a function: a block and an instruction of the function. -/
structure Point where
  block : Nat
  instr : Nat
deriving DecidableEq, Repr, Inhabited

/-- The place as text. -/
def Point.text (p : Point) : String :=
  -- the braces by their codes, as in `Constant.text`
  "ExecutionPoint \x7b block: " ++ toString p.block ++ ", instruction: " ++ toString p.instr
    ++ " \x7d"

/-- An operation that needs all lanes at one place. -/
inductive SyncPoint
  | barrier | derivative
deriving DecidableEq, Repr, Inhabited

/-- Input or output of the entry point. -/
inductive SignatureSide
  | input | output
deriving DecidableEq, Repr, Inhabited

/-- What can be wrong with a program. -/
inductive ProgramFault
  | noFunction (index : Nat)
  | definedTwice (id : Id)
  | readBeforeDefinition (id : Id) (read definition : Point)
  | undefinedReads (function : String)
  | phiUnpaired
  | phiWithoutBlock
  | phiUnknownBlock (block : Nat)
  | idOutOfRange (id : Id)
  | blockCount (function : String) (blocks runs : Nat)
  | globalOutOfRange (id : Id)
  | cannotEnter (function : Nat)
  | ranOff (lane : Nat) (function : String)
  | notAnalysed (function : Nat)
  | resultOutOfRange (id : Id)
  | unknownBlock (block : Nat)
  | missingOperand (op : Opcode) (index : Nat)
  | operandNotId (op : Opcode) (index : Nat)
  | noResult (op : Opcode)
  | activeLane (lane count : Nat)
  | malformedBranch
  | switchWithoutDefault
  | malformedSwitchCase
  | malformedPhi
  | phiWithoutValue (id : Id) (pred function : Nat)
  | extractWithoutIndex
  | extractIndex (index count : Nat)
  | extractMember (index : Nat)
  | extractElementIndex (index count : Nat)
  | insertElementIndex (index count : Nat)
  | shuffleLane (lane : Nat)
  | gepWithoutIndices
  | memberIndexNotConstant
  | noOperand (op : Intrinsic)
  | signatureElement (side : SignatureSide) (index : Nat)
  | signaturePosition (side : SignatureSide) (name : String) (row column rows columns : Nat)
  | builtinMissing (builtin : Builtin)
  | builtinComponent (op : Intrinsic) (component : Nat)
  | quadLaneMissing (lane : Nat)
  | notAQuad (size count : Nat)
  | handleWithoutSlot (name : String)
  | unknownClass (number : Nat)
  | undeclaredResource (cls : ResourceClass) (op : Intrinsic)
  | annotatedTwice (id : Id)
  | resultNotStruct (op : Intrinsic)
  | noValue (op : Intrinsic)
  | unknownAtomic (number : Nat)
deriving Repr

/-- How operands or results can have the wrong type. -/
inductive TypeFault
  | blockAsValue (block : Nat)
  | opOnResult (op : Opcode) (ty : Ty)
  | opOnElem (op : Opcode) (elem : ElemType)
  | opOnOperands (op : Opcode) (elem : ElemType)
  | intrinsicOnElem (op : Intrinsic) (elem : ElemType)
  | bitcast (bytes : Nat) (ty : Ty)
  | gepResult (found declared : Ty)
  | derivativeOf (elem : ElemType)
  | notAHandle (id : Id) (elem : ElemType)
  | notAConstantBlock
  | onHandle (op : Intrinsic) (cls : ResourceClass)
  | onReadOnly (op : Intrinsic)
  | notReadWrite (op : Intrinsic)
  | notReadOnly (op : Intrinsic)
  | noSampler (op : Intrinsic)
deriving Repr

/-- How memory can be misused. -/
inductive MemoryFault
  | notAPointerType (id : Id)
  | noAllocation (id : Id)
  | readOutside (start stop : Nat) (id : Id) (size : Nat)
  | writeTooLong (length size : Nat)
  | writeOutside (start stop : Nat) (id : Id) (size : Nat)
  | offsetOverflow
  | memberOutOfRange (index : Int)
  | elementOutside (offset : Int) (size : Nat) (id : Id) (allocated : Nat)
  | notAPointer (id : Id)
deriving Repr

/-- Why something failed. -/
inductive Fault
  | program (cause : ProgramFault)
  | unassignedRead (id : Id)
  | unsupportedOpcode (op : Opcode)
  | unsupportedIntrinsic (op : Intrinsic)
  | type (cause : TypeFault)
  | memory (cause : MemoryFault)
  | diverged (at_ : SyncPoint)
  | host (text : String)
  | sessionTerminated
  | stepLimit (limit : Nat)
  | configUnreadable
  | configMalformed
deriving Repr

/-! ## Wording -/

/-- The operation as it is named in a message. -/
def SyncPoint.text : SyncPoint → String
  | .barrier => "barrier"
  | .derivative => "derivative"

/-- The side as it is named in a message. -/
def SignatureSide.text : SignatureSide → String
  | .input => "input"
  | .output => "output"

/-- The message of a program fault. -/
def ProgramFault.message : ProgramFault → String
  | noFunction i => "no function " ++ toString i
  | definedTwice id => id.text ++ " defined twice"
  | readBeforeDefinition id read definition =>
    id.text ++ " read at " ++ read.text ++ " before its definition at " ++ definition.text
  | undefinedReads f => "function " ++ f ++ " reads ids it never defines"
  | phiUnpaired => "phi with unpaired operand"
  | phiWithoutBlock => "phi operand without a block"
  | phiUnknownBlock b => "phi names unknown block " ++ toString b
  | idOutOfRange id => id.text ++ " outside the program id range"
  | blockCount f blocks runs =>
    "function " ++ f ++ " has " ++ toString blocks ++ " blocks but " ++ toString runs
      ++ " terminated instruction runs"
  | globalOutOfRange id => "global " ++ id.text ++ " outside id range"
  | cannotEnter f => "cannot enter function " ++ toString f
  | ranOff lane f => "lane " ++ toString lane ++ " ran off the end of " ++ f
  | notAnalysed f => "no analysis for function " ++ toString f
  | resultOutOfRange id => "result " ++ id.text ++ " outside id range"
  | unknownBlock b => "branch to unknown block " ++ toString b
  | missingOperand op i => nameOf op ++ " is missing operand " ++ toString i
  | operandNotId op i => nameOf op ++ " operand " ++ toString i ++ " is not an SSA id"
  | noResult op => nameOf op ++ " without a result id"
  | activeLane lane count =>
    "active lane " ++ toString lane ++ " outside a workgroup of " ++ toString count
  | malformedBranch => "malformed branch operands"
  | switchWithoutDefault => "switch without a default target"
  | malformedSwitchCase => "malformed switch case"
  | malformedPhi => "malformed phi operands"
  | phiWithoutValue id pred f =>
    "phi " ++ id.text ++ " has no value for predecessor block " ++ toString pred ++ " (function "
      ++ toString f ++ ")"
  | extractWithoutIndex => "extractvalue without an index"
  | extractIndex i n =>
    "extractvalue index " ++ toString i ++ " outside a " ++ toString n ++ " component value"
  | extractMember i => "extractvalue member " ++ toString i ++ " missing"
  | extractElementIndex i n =>
    "extractelement index " ++ toString i ++ " outside a " ++ toString n ++ " element vector"
  | insertElementIndex i n =>
    "insertelement index " ++ toString i ++ " outside a " ++ toString n ++ " element vector"
  | shuffleLane i => "shufflevector lane " ++ toString i ++ " out of range"
  | gepWithoutIndices => "getelementptr without indices"
  | memberIndexNotConstant => "struct member index must be constant"
  | noOperand op => nameOf op ++ " without an operand"
  | signatureElement side i =>
    side.text ++ " element " ++ toString i ++ " not in the signature"
  | signaturePosition side name row column rows columns =>
    side.text ++ " " ++ name ++ "[" ++ toString row ++ "][" ++ toString column ++ "] outside "
      ++ toString rows ++ "x" ++ toString columns
  | builtinMissing b => nameOf b ++ " has no value"
  | builtinComponent op c => nameOf op ++ " component " ++ toString c
  | quadLaneMissing lane => "quad lane " ++ toString lane ++ " is missing"
  | notAQuad size count =>
    "derivatives need a " ++ toString size ++ " lane quad, the workgroup has " ++ toString count
  | handleWithoutSlot name => "resource handle " ++ name ++ " has no binding"
  | unknownClass n => "unknown resource class " ++ toString n
  | undeclaredResource cls op =>
    "no " ++ nameOf cls ++ " resource declared for " ++ nameOf op
  | annotatedTwice id => id.text ++ " annotated twice with different properties"
  | resultNotStruct op => nameOf op ++ " result must be a struct"
  | noValue op => nameOf op ++ " without a value"
  | unknownAtomic n => "unknown atomic op " ++ toString n

/-- The message of a type fault. -/
def TypeFault.message : TypeFault → String
  | blockAsValue b => "block " ++ toString b ++ " used as a value"
  | opOnResult op ty => nameOf op ++ " on a " ++ ty.text ++ " result"
  | opOnElem op elem => nameOf op ++ " on " ++ nameOf elem
  | opOnOperands op elem => nameOf op ++ " on " ++ nameOf elem ++ " operands"
  | intrinsicOnElem op elem => nameOf op ++ " on " ++ nameOf elem
  | bitcast n ty => "bitcast of " ++ toString n ++ " bytes to " ++ ty.text
  | gepResult found declared =>
    "getelementptr yields " ++ found.text ++ " but is declared " ++ declared.text
  | derivativeOf elem => "derivative of " ++ nameOf elem ++ " value"
  | notAHandle id elem => id.text ++ " (" ++ nameOf elem ++ ") is not a resource handle"
  | notAConstantBlock => "CBufferLoadLegacy on a non constant buffer handle"
  | onHandle op cls => nameOf op ++ " on a " ++ nameOf cls ++ " handle"
  | onReadOnly op => nameOf op ++ " on a read-only resource"
  | notReadWrite op => nameOf op ++ " on a non read-write resource"
  | notReadOnly op => nameOf op ++ " on a non read-only resource"
  | noSampler op => nameOf op ++ " without a sampler"

/-- The message of a memory fault. -/
def MemoryFault.message : MemoryFault → String
  | notAPointerType id => id.text ++ " allocated with non-pointer type"
  | noAllocation id => "no allocation " ++ id.text
  | readOutside start stop id size =>
    "read of " ++ toString start ++ ".." ++ toString stop ++ " outside allocation " ++ id.text
      ++ " of " ++ toString size ++ " bytes"
  | writeTooLong length size =>
    "write of " ++ toString length ++ " bytes through a " ++ toString size ++ " byte pointer"
  | writeOutside start stop id size =>
    "write of " ++ toString start ++ ".." ++ toString stop ++ " outside allocation " ++ id.text
      ++ " of " ++ toString size ++ " bytes"
  | offsetOverflow => "getelementptr offset overflows"
  | memberOutOfRange i => "struct member " ++ toString i ++ " out of range"
  | elementOutside offset size id allocated =>
    "getelementptr offset " ++ toString offset ++ " (+" ++ toString size
      ++ ") outside allocation " ++ id.text ++ " of " ++ toString allocated ++ " bytes"
  | notAPointer id => id.text ++ " is not a known pointer"

/-- The message of a fault. -/
def Fault.message : Fault → String
  | program cause => "Invalid program: " ++ cause.message
  | unassignedRead id => "SSA id " ++ id.text ++ " read before assignment"
  | unsupportedOpcode op => "Unsupported operation: " ++ nameOf op
  | unsupportedIntrinsic op => "Unsupported dx.op: " ++ nameOf op
  | type cause => "Type mismatch: " ++ cause.message
  | memory cause => "Memory error: " ++ cause.message
  | diverged at_ => "Lanes diverged during " ++ at_.text
  | host text => "API wrapper failure: " ++ text
  | sessionTerminated => "Debug session terminated"
  | stepLimit limit => "Step limit of " ++ toString limit ++ " reached"
  | configUnreadable => "Config I/O error"
  | configMalformed => "Config parse error"

end Lockstep
