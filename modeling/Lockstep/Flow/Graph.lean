set_option autoImplicit false

/-! # Flow graphs

The blocks of a function and the links between them. -/

namespace Lockstep

/-- The blocks of a function and the links between them. -/
structure FlowGraph where
  /-- The blocks that each block leads to, without repetition. -/
  succs : Array (List Nat)
deriving Repr, Inhabited

namespace FlowGraph

/-- Add a link, unless it is there. -/
def addLink (succs : Array (List Nat)) (link : Nat × Nat) : Array (List Nat) :=
  succs.modify link.1 fun ts => if ts.contains link.2 then ts else ts ++ [link.2]

/-- The graph of given links over at least `blockCount` blocks. -/
def ofLinks (blockCount : Nat) (links : List (Nat × Nat)) : FlowGraph :=
  let count := links.foldl (fun n l => max n (max l.1 l.2 + 1)) blockCount
  { succs := links.foldl addLink (Array.replicate count []) }

/-- The number of blocks. -/
def size (g : FlowGraph) : Nat := g.succs.size

/-- The blocks that a block leads to. -/
def successors (g : FlowGraph) (block : Nat) : List Nat := g.succs[block]?.getD []

/-- Whether there is a link. -/
def link (g : FlowGraph) (a b : Nat) : Bool := (g.successors a).contains b

/-- Whether a block is left by no link. -/
def isExit (g : FlowGraph) (block : Nat) : Bool := (g.successors block).isEmpty

/-- The blocks. -/
def blocks (g : FlowGraph) : List Nat := List.range g.size

/-- The number of links. -/
def linkCount (g : FlowGraph) : Nat := g.succs.toList.flatten.length

/-- No block leads to more blocks than there are links. -/
theorem length_successors_le (g : FlowGraph) (block : Nat) :
    (g.successors block).length ≤ g.linkCount := by
  unfold successors linkCount
  cases h : g.succs[block]? with
  | none => simp
  | some ts =>
      rw [← Array.getElem?_toList] at h
      exact (List.sublist_flatten_of_mem (List.mem_of_getElem? h)).length_le

/-- To mark a block leaves one block less without a mark. -/
theorem count_mark {seen : Array Bool} {b : Nat} (hb : seen[b]? = some false) :
    (seen.setIfInBounds b true).count false + 1 = seen.count false := by
  obtain ⟨hlt, hval⟩ := Array.getElem?_eq_some_iff.1 hb
  have hpos : 0 < seen.count false := Array.count_pos_iff.2 (hval ▸ Array.getElem_mem hlt)
  simp only [Array.setIfInBounds, hlt, dif_pos, Array.count_set, hval]
  simp
  omega

end FlowGraph

end Lockstep
