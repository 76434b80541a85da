import Lockstep.Flow.Dominance
import Lockstep.Flow.Search

set_option autoImplicit false

/-! # Control flow

What the debugger asks of a flow graph: which blocks can be reached, which lie on a cycle, which
every run passes exactly once (the uniform blocks), and which uniform block comes next. -/

namespace Lockstep

/-- A flow graph with its analysis. -/
structure ControlFlow where
  graph : FlowGraph
  /-- Whether a block can be reached from another by one or more links. -/
  reach : Relation
  /-- The blocks on a cycle, in ascending order. -/
  loops : List Nat
  /-- The unavoidable blocks that are on no cycle, in ascending order. -/
  uniform : List Nat
deriving Repr, Inhabited

namespace ControlFlow

/-- Analyse a graph. -/
def ofGraph (graph : FlowGraph) : ControlFlow :=
  let reach := graph.reachTable
  let loops := graph.blocks.filter fun b => reach.holds b b
  { graph, reach, loops, uniform := (graph.unavoidable reach).filter fun b => !loops.contains b }

/-- Analyse the graph of given links. -/
def ofLinks (blockCount : Nat) (links : List (Nat × Nat)) : ControlFlow :=
  ofGraph (.ofLinks blockCount links)

/-- Whether every run passes the block exactly once. -/
def isUniform (cf : ControlFlow) (block : Nat) : Bool := cf.uniform.contains block

/-- Whether the block is on a cycle. -/
def isLoop (cf : ControlFlow) (block : Nat) : Bool := cf.loops.contains block

/-- The lowest uniform block of a level. -/
def lowestUniform? (cf : ControlFlow) (level : List Nat) : Option Nat :=
  (level.filter cf.isUniform).min?

/-- The lowest uniform block of the first level that has one, from a level on. -/
def firstUniform? (cf : ControlFlow) (f : Front) : Option Nat :=
  if f.level = [] then none
  else
    match cf.lowestUniform? f.level with
    | some b => some b
    | none => firstUniform? cf (cf.graph.pass f)
termination_by f.todo
decreasing_by exact cf.graph.todo_pass ‹_›

/-- The nearest uniform block that can be reached from a block, the lowest of those that are equally
    near; the block itself when there is none. -/
def nextUniform (cf : ControlFlow) (block : Nat) : Nat :=
  (cf.firstUniform? (cf.graph.frontOf block)).getD block

end ControlFlow

end Lockstep
