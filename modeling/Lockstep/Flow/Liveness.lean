import Lockstep.Flow.Control
import Lockstep.Fault

set_option autoImplicit false

/-! # Analysis of functions

Before a function runs, its blocks are located in the instruction sequence, its flow graph is
analysed, and for each identifier the furthest point is found at which it is still read. A lane
drops an identifier once it is past that point. Reads by phi nodes are noted separately, for the
block that control comes from. -/

namespace Lockstep

/-- Whether a point comes after another: by order within a block, by reachability between blocks. -/
def Point.isAfter (p q : Point) (cf : ControlFlow) : Bool :=
  if p.block = q.block then q.instr < p.instr else cf.reach.holds q.block p.block

/-- What is known of a function before it runs. -/
structure FunctionAnalysis where
  /-- The number of the function in the program. -/
  function : Nat
  /-- The number of the function's first instruction, counted over the whole program. -/
  offset : Nat
  flow : ControlFlow
  /-- The first instruction of each block. -/
  starts : List Nat
  /-- Every identifier that the function defines, and the globals that it names. -/
  referenced : List Id
  /-- The furthest point at which each identifier is read. -/
  lastReads : Array (Option Point)
  /-- For each block, the identifiers that phi nodes read when control leaves it. -/
  phiReads : Array (List Id)
deriving Repr, Inhabited

/-! ## Blocks -/

/-- The positions after a terminator, of instructions that are numbered from `i` on. -/
def startsAfter (i : Nat) : List Instr → List Nat
  | [] => []
  | [_] => []
  | a :: b :: rest => (if a.isTerminator then [i + 1] else []) ++ startsAfter (i + 1) (b :: rest)

/-- The first instruction of each block; there have to be as many as blocks. -/
def Function.blockStarts (f : Function) : Except Fault (List Nat) :=
  let starts := if f.instrs.isEmpty then [] else 0 :: startsAfter 0 f.instrs.toList
  if starts.length = f.blocks.size then .ok starts
  else .error (.program (.blockCount f.name f.blocks.size starts.length))

/-! ## Last reads -/

/-- What the walk over a function's instructions has found, and the block it is in. -/
structure LiveRanges where
  referenced : List Id
  lastReads : Array (Option Point)
  block : Nat

namespace LiveRanges

/-- The furthest read of an identifier so far. -/
def lastRead? (s : LiveRanges) (id : Id) : Option Point := (s.lastReads[id.index]?).join

/-- Set the furthest read of an identifier of the program. -/
def setLastRead (s : LiveRanges) (id : Id) (p : Point) : Except Fault LiveRanges :=
  if id.index < s.lastReads.size then
    .ok { s with lastReads := s.lastReads.setIfInBounds id.index (some p) }
  else .error (.program (.idOutOfRange id))

/-- Add an identifier to those that are referenced. -/
def reference (s : LiveRanges) (id : Id) : LiveRanges :=
  if s.referenced.contains id then s else { s with referenced := id :: s.referenced }

/-- Note the definition of an identifier at a point. -/
def define (cf : ControlFlow) (s : LiveRanges) (id : Id) (here : Point) : Except Fault LiveRanges :=
  if s.referenced.contains id then .error (.program (.definedTwice id))
  else
    let s := s.reference id
    match s.lastRead? id with
    | none => s.setLastRead id here
    | some read =>
      if read.isAfter here cf then .ok s
      else .error (.program (.readBeforeDefinition id read here))

/-- Note a read of an operand that keeps its identifier up to a point. -/
def read (p : Program) (cf : ControlFlow) (upTo : Point) (s : LiveRanges) :
    Operand → Except Fault LiveRanges
  | .ref id =>
    let s := if (p.global? id).isSome then s.reference id else s
    match s.lastRead? id with
    | none => s.setLastRead id upTo
    | some furthest => if upTo.isAfter furthest cf then s.setLastRead id upTo else .ok s
  | _ => .ok s

/-- How far the operands of an instruction are kept: to the next instruction, an allocation to the
    function's end, and in a loop to the start of the next uniform block, because every round of the
    loop reads them again. -/
def reach (cf : ControlFlow) (starts : List Nat) (count block i : Nat) (instr : Instr) : Point :=
  if cf.isLoop block then
    let next := cf.nextUniform block
    ⟨next, starts[next]?.getD 0 + 1⟩
  else ⟨block, if instr.op = .alloca then count else i + 1⟩

/-- Note the result of the instruction numbered `i`. -/
def noteResult (cf : ControlFlow) (i : Nat) (instr : Instr) (s : LiveRanges) :
    Except Fault LiveRanges :=
  match instr.result with
  | some id => define cf s id ⟨s.block, i⟩
  | none => .ok s

/-- Note the operands of the instruction numbered `i`, unless it is a phi node. -/
def noteArgs (p : Program) (cf : ControlFlow) (starts : List Nat) (count i : Nat) (instr : Instr)
    (s : LiveRanges) : Except Fault LiveRanges :=
  if instr.op = .phi then .ok s
  else instr.args.foldlM (read p cf (reach cf starts count s.block i instr)) s

/-- Go on behind an instruction, after a terminator with the next block. -/
def behind (instr : Instr) (s : LiveRanges) : LiveRanges :=
  if instr.isTerminator then { s with block := s.block + 1 } else s

/-- Note the result and the operands of the instruction numbered `i`. -/
def note (p : Program) (cf : ControlFlow) (starts : List Nat) (count i : Nat) (instr : Instr)
    (s : LiveRanges) : Except Fault LiveRanges :=
  if instr.isNop then .ok s
  else do
    let s ← noteResult cf i instr s
    let s ← noteArgs p cf starts count i instr s
    return s.behind instr

/-- Note instructions that are numbered from `i` on. -/
def walk (p : Program) (cf : ControlFlow) (starts : List Nat) (count : Nat) :
    (i : Nat) → List Instr → LiveRanges → Except Fault LiveRanges
  | _, [], s => .ok s
  | i, instr :: rest, s => do
    let s ← note p cf starts count i instr s
    walk p cf starts count (i + 1) rest s

end LiveRanges

/-! ## Reads by phi nodes -/

/-- Add what the operands of a phi node read to the lists of the blocks they come from. -/
def notePhiArgs (reads : Array (List Id)) : List Operand → Except Fault (Array (List Id))
  | [] => .ok reads
  | [_] => .error (.program .phiUnpaired)
  | .ref id :: source :: rest =>
    match source.block? with
    | none => .error (.program .phiWithoutBlock)
    | some b =>
      if b < reads.size then
        notePhiArgs (reads.modify b fun ids => if ids.contains id then ids else ids ++ [id]) rest
      else .error (.program (.phiUnknownBlock b))
  | _ :: _ :: rest => notePhiArgs reads rest

/-! ## Functions and programs -/

namespace FunctionAnalysis

/-- Analyse a function of a program whose first instruction has the number `offset`. -/
def ofFunction (p : Program) (index offset : Nat) : Except Fault FunctionAnalysis := do
  let some f := p.functions[index]? | throw (.program (.noFunction index))
  let starts ← f.blockStarts
  let flow := ControlFlow.ofLinks f.blocks.size f.links
  let initial : LiveRanges :=
    { referenced := [], lastReads := Array.replicate p.idCount none, block := 0 }
  let s ← LiveRanges.walk p flow starts f.instrs.size 0 f.instrs.toList initial
  if (s.lastReads.filter Option.isSome).size ≠ s.referenced.length then
    throw (.program (.undefinedReads f.name))
  let phis := f.instrs.toList.filter fun i => i.op == .phi
  let phiReads ← phis.foldlM (fun reads i => notePhiArgs reads i.args)
    (Array.replicate f.blocks.size [])
  let referenced := ((List.range p.idCount).map Id.mk).filter s.referenced.contains
  return { function := index, offset, flow, starts, referenced, lastReads := s.lastReads, phiReads }

/-- The furthest point at which an identifier is read. -/
def lastRead? (a : FunctionAnalysis) (id : Id) : Option Point := (a.lastReads[id.index]?).join

/-- The identifiers that phi nodes read when control leaves a block. -/
def phiReadsOf (a : FunctionAnalysis) (block : Nat) : List Id := a.phiReads[block]?.getD []

/-- The first instruction of a block. -/
def start? (a : FunctionAnalysis) (block : Nat) : Option Nat := a.starts[block]?

/-- Analyse functions that are numbered from `index` on; those without a body have no analysis. -/
def ofFunctions (p : Program) : (index offset : Nat) → List Function →
    Except Fault (List (Option FunctionAnalysis))
  | _, _, [] => .ok []
  | index, offset, f :: rest => do
    if f.isExternal then return none :: (← ofFunctions p (index + 1) offset rest)
    let a ← ofFunction p index offset
    return some a :: (← ofFunctions p (index + 1) (offset + f.instrs.size) rest)

/-- Analyse every function of a program. -/
def ofProgram (p : Program) : Except Fault (Array (Option FunctionAnalysis)) := do
  return (← ofFunctions p 0 0 p.functions.toList).toArray

end FunctionAnalysis

/-- The analyses of a program's functions. -/
abbrev Analyses := Array (Option FunctionAnalysis)

/-- The analysis of a function. -/
def Analyses.of? (as : Analyses) (function : Nat) : Option FunctionAnalysis := as[function]?.join

end Lockstep
