import Lockstep.Flow.Graph

set_option autoImplicit false

/-! # Reachability in flow graphs

From each block the graph is walked once, breadth first; the blocks that the walks come to make up a
table of truth values. -/

namespace Lockstep

/-- A relation between the nodes below some number, as a table. -/
structure Relation where
  rows : Array (Array Bool)
deriving Repr, Inhabited, DecidableEq

namespace Relation

/-- Whether two nodes are related; nodes outside the table are not. -/
def holds (r : Relation) (a b : Nat) : Bool := (r.rows[a]?.bind fun row => row[b]?).getD false

/-- Whether a node is another one or related to it. -/
def holdsOrSame (r : Relation) (a b : Nat) : Bool := a == b || r.holds a b

end Relation

namespace FlowGraph

/-- Mark the blocks of a queue and what they lead to. A block is marked when it comes up for the
    first time, and the blocks that it leads to are put at the end of the queue. -/
def mark (g : FlowGraph) (queue : List Nat) (seen : Array Bool) : Array Bool :=
  match queue with
  | [] => seen
  | b :: rest =>
    if seen[b]? = some false then g.mark (rest ++ g.successors b) (seen.setIfInBounds b true)
    else g.mark rest seen
termination_by seen.count false * (g.linkCount + 1) + queue.length
decreasing_by
  · rename_i hb
    have hcount := count_mark hb
    have hlen := g.length_successors_le b
    rw [← hcount, Nat.add_mul, Nat.one_mul, List.length_append, List.length_cons]
    omega
  · simp

/-- The blocks that can be reached from a block by one or more links. -/
def reachFrom (g : FlowGraph) (block : Nat) : Array Bool :=
  g.mark (g.successors block) (Array.replicate g.size false)

/-- Which block can be reached from which by one or more links. -/
def reachTable (g : FlowGraph) : Relation :=
  ⟨Array.ofFn fun b : Fin g.size => g.reachFrom b⟩

end FlowGraph

end Lockstep
