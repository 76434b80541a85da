import Lockstep.Flow.Liveness
import Lockstep.Report
import Lockstep.World

set_option autoImplicit false

/-! # Lanes

A lane is one run of the program: the values of its identifiers, which of them are in scope, where
it is, and its own memory. The signature's input and output are two more variables, which a few
instructions reach under the identifiers after the program's last. -/

namespace Lockstep

/-- What a lane is started with. -/
structure LaneInit where
  /-- The input signature's values, one member for each element. -/
  input : Variable := .empty
  /-- The builtin values that differ between lanes. -/
  builtins : Table Builtin Variable := .empty
deriving Inhabited

/-- The place of an identifier in a lane. -/
structure Cell where
  /-- The latest value, if there was one. -/
  value : Option Variable := none
  /-- Whether the identifier is in scope. -/
  isLive : Bool := false
  /-- Whether it is a global variable, which stays in scope. -/
  isGlobal : Bool := false
deriving Repr, Inhabited

/-- What an annotation says of a handle. -/
structure HandleProperties where
  kind : ResourceKind
  cls : ResourceClass
  structStride : UInt32
deriving DecidableEq, Repr, Inhabited

/-- A lane. -/
structure Lane where
  index : Nat
  stage : Stage
  cells : Array Cell
  input : Variable
  output : Variable
  memory : Memory := {}
  function : Nat
  block : Nat := 0
  previousBlock : Nat
  /-- The next instruction within the function, and counted over the whole program. -/
  instr : Nat := 0
  globalInstr : Nat := 0
  /-- The next instruction that is not a marker, as it was when the lane last came to rest. -/
  activeInstr : Nat := 0
  isKilled : Bool := false
  isEnded : Bool := false
  isEntered : Bool := false
  /-- What phi nodes read, kept from the moment when control left the previous block. -/
  phiValues : Table Id Variable := .empty
  builtins : Table Builtin Variable := .empty
  /-- The resources of handles that were made from descriptor heaps. -/
  references : Table Id ResourceRef := .empty
  properties : Table Id HandleProperties := .empty
  /-- The resources whose first use has been reported. -/
  accessed : List (ResourceClass × Slot) := []
deriving Inhabited

namespace Lane

/-- The number that stands for the previous block when there is none. -/
def noBlock : Nat := 4294967295

/-- A lane that has not entered the program. -/
def new (index : Nat) (p : Program) (init : LaneInit) : Lane :=
  let outputs := p.outputs.map fun e =>
    ({ name := e.name, elem := e.elem, rows := e.rows, columns := e.columns } : Variable)
  { index, stage := p.stage
    cells := Array.replicate p.idCount {}
    input := if init.input.name.isEmpty then init.input.withName "input" else init.input
    output := .aggregate "output" outputs
    function := p.entry
    previousBlock := noBlock
    builtins := init.builtins }

/-- The identifier of the input. -/
def inputId (l : Lane) : Id := ⟨l.cells.size⟩

/-- The identifier of the output. -/
def outputId (l : Lane) : Id := ⟨l.cells.size + 1⟩

/-- Whether the lane has nothing to run: it was killed, has returned, or was not entered. -/
def isFinished (l : Lane) : Bool := l.isKilled || l.isEnded || !l.isEntered

/-- Where the lane is, for comparison with other lanes. -/
def position (l : Lane) : Nat × Nat := (l.block, l.activeInstr)

/-- Whether the lane is in a uniform block of its function. -/
def inUniformBlock (l : Lane) (as : Analyses) : Bool :=
  (as.of? l.function).any fun a => a.flow.isUniform l.block

/-! ## Variables -/

/-- The value of an identifier, if it was assigned. -/
def value? (l : Lane) (id : Id) : Option Variable :=
  if id.index < l.cells.size then (l.cells[id.index]?.bind Cell.value)
  else if id = l.inputId then some l.input
  else if id = l.outputId then some l.output
  else none

/-- Whether an identifier is in scope; input and output always are. -/
def isLive (l : Lane) (id : Id) : Bool :=
  if id.index < l.cells.size then l.cells[id.index]?.any Cell.isLive
  else id = l.inputId || id = l.outputId

/-- The program's identifiers that are in scope. -/
def liveIds (l : Lane) : List Id := ((List.range l.cells.size).map Id.mk).filter l.isLive

/-- Whether a value can be assigned to an identifier. -/
def hasPlace (l : Lane) (id : Id) : Bool := id.index < l.cells.size + 2

/-- Assign a value. The scope of the identifier stays as it is. -/
def assign (l : Lane) (id : Id) (v : Variable) : Lane :=
  if id.index < l.cells.size then
    { l with cells := l.cells.modify id.index fun c => { c with value := some v } }
  else if id = l.inputId then { l with input := v }
  else if id = l.outputId then { l with output := v }
  else l

/-- Bring an identifier into scope. -/
def bringIntoScope (l : Lane) (id : Id) : Lane :=
  { l with cells := l.cells.modify id.index fun c => { c with isLive := true } }

/-! ## Scope -/

/-- Whether a cell goes out of scope at a point: it is in scope, not a global, not the one that is
    kept, and the point is after the last read. -/
def retires (a : FunctionAnalysis) (here : Point) (keep : Option Id) (id : Id) (c : Cell) : Bool :=
  c.isLive && !c.isGlobal && some id != keep &&
    (a.lastRead? id).any fun last => here.isAfter last a.flow

/-- Where the lane is within its function. -/
def point (l : Lane) : Point := ⟨l.block, l.instr⟩

/-- The identifiers that go out of scope now. -/
def retiring (l : Lane) (a : FunctionAnalysis) (keep : Option Id) : List Id :=
  ((List.range l.cells.size).map Id.mk).filter fun id =>
    (l.cells[id.index]?).any (retires a l.point keep id)

/-- Drop the identifiers whose last read is behind the lane. -/
def retire (l : Lane) (a : FunctionAnalysis) (keep : Option Id) : Lane :=
  { l with cells := l.cells.mapIdx fun i c =>
      if retires a l.point keep ⟨i⟩ c then { c with isLive := false } else c }

/-! ## Entering -/

/-- Whether a function has a marker at an instruction. -/
def atNop (f : Function) (i : Nat) : Bool := f.instrs[i]?.any Instr.isNop

/-- The number of markers from an instruction on, up to `fuel`. -/
def nopsFrom (f : Function) (i : Nat) : (fuel : Nat) → Nat
  | 0 => 0
  | n + 1 => if atNop f i then nopsFrom f (i + 1) n + 1 else 0

/-- Move past markers, so that the lane rests at an instruction that does something. -/
def skipNops (l : Lane) (p : Program) : Lane :=
  if l.isFinished then l
  else
    let skipped := match p.functions[l.function]? with
      | some f => nopsFrom f l.instr f.instrs.size
      | none => 0
    { l with
      instr := l.instr + skipped
      globalInstr := l.globalInstr + skipped
      activeInstr := l.globalInstr + skipped }

/-- Mark the identifiers of global variables: those and no others are in scope. -/
def scopeGlobals (l : Lane) (liveGlobals : Array Bool) : Lane :=
  { l with cells := l.cells.mapIdx fun i c => match liveGlobals[i]? with
      | some g => { c with isLive := g, isGlobal := g }
      | none => c }

/-- Go to the start of a function. -/
def enterFunction (l : Lane) (p : Program) (as : Analyses) (index : Nat)
    (liveGlobals : Array Bool) : Except Fault Lane :=
  match as.of? index with
  | none => .error (.program (.cannotEnter index))
  | some a =>
    .ok (({ l with
      function := index
      instr := 0
      globalInstr := a.offset
      block := 0
      previousBlock := noBlock
      phiValues := .empty
      isEntered := true }.scopeGlobals liveGlobals).skipNops p)

/-- Assign the global variables. Those before one without a place are assigned even so. -/
def bindGlobals (l : Lane) : List GlobalVar → Lane × Option Fault
  | [] => (l, none)
  | g :: gs =>
    if l.hasPlace g.id then (l.assign g.id g.value).bindGlobals gs
    else (l, some (.program (.globalOutOfRange g.id)))

/-- Enter the program. The lane is also given when that fails. -/
def enter (l : Lane) (p : Program) (b : Bindings) (as : Analyses) (liveGlobals : Array Bool) :
    Except Fault Unit × Lane :=
  match l.bindGlobals b.globals with
  | (l, some fault) => (.error fault, l)
  | (l, none) =>
    match l.enterFunction p as p.entry liveGlobals with
    | .error fault => (.error fault, l)
    | .ok l => (.ok (), l)

/-- The state before the first step: the input and the globals have come into being. -/
def initialState (l : Lane) (b : Bindings) : StepState :=
  { next := l.globalInstr
    changes := .created l.input :: b.globals.map fun g => .created g.value }

/-- Read the lane's copies of global variables from the shared memory again. -/
def refreshGlobals (l : Lane) (memory : Memory) : List GlobalVar → Except Fault Unit × Lane
  | [] => (.ok (), l)
  | g :: gs =>
    match l.value? g.id with
    | none => l.refreshGlobals memory gs
    | some v =>
      match memory.reload g.id v with
      | .error fault => (.error fault, l)
      | .ok v => (l.assign g.id v).refreshGlobals memory gs

end Lane

/-! ## Lanes together -/

/-- Whether lanes that are not finished are at different places. -/
def diverged (lanes : List Lane) : Bool :=
  match (lanes.filter fun l => !l.isFinished).map Lane.position with
  | [] => false
  | p :: ps => ps.any (· != p)

/-- The lanes that run in a round. In a pixel quad that has diverged, lanes in a uniform block wait
    for the others; if that would stop every lane, all that are not finished run. -/
def activeMask (stage : Stage) (lanes : List Lane) (as : Analyses) : List Bool :=
  let unfinished := lanes.map fun l => !l.isFinished
  if stage != .pixel || !diverged lanes then unfinished
  else
    let held := lanes.map fun l => !l.isFinished && !l.inUniformBlock as
    if held.any id then held else unfinished

end Lockstep
