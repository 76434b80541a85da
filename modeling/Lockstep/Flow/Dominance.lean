import Lockstep.Flow.Reach

set_option autoImplicit false

/-! # Dominators of the exit

A block that is on every way from the entry to an exit dominates the exits. The graph is given one
node more, to which every exit leads, and the dominators of its nodes are found by iteration: at
first every node dominates every other, and a dominator of a node is dropped as soon as it does not
dominate one of the nodes before it. -/

namespace Lockstep

namespace FlowGraph

/-- The blocks that lead to a node, of those that can be reached from the entry. The node after the
    last block is the one that the exits lead to. -/
def preds (g : FlowGraph) (reach : Relation) (n : Nat) : List Nat :=
  g.blocks.filter fun b =>
    reach.holdsOrSame 0 b && if n = g.size then g.isExit b else g.link b n

/-- The nodes that can be reached from the entry, the entry first. -/
def nodes (g : FlowGraph) (reach : Relation) : List Nat :=
  g.blocks.filter (reach.holdsOrSame 0) ++ [g.size]

/-- The dominators before the iteration: the entry has itself, all other nodes have every node. -/
def initialDominators (g : FlowGraph) : Array (List Nat) :=
  Array.ofFn fun n : Fin (g.size + 1) => if n.val = 0 then [0] else List.range (g.size + 1)

/-- Keep of a node's dominators itself and those that dominate each of some nodes before it. -/
def restrict (preds : List Nat) (dom : Array (List Nat)) (n : Nat) : Array (List Nat) :=
  dom.modify n fun ds =>
    ds.filter fun d => d == n || preds.all fun p => (dom[p]?.getD []).contains d

/-- One pass over the nodes other than the entry. -/
def sweep (g : FlowGraph) (reach : Relation) (dom : Array (List Nat)) : Array (List Nat) :=
  (g.nodes reach).tail.foldl (fun dom n => restrict (g.preds reach n) dom n) dom

/-- How many pairs of a node and a dominator there are. -/
def dominatorCount (dom : Array (List Nat)) : Nat := dom.toList.flatten.length

theorem length_modify_filter (p : Nat → Bool) (l : List (List Nat)) (n : Nat) :
    (l.modify n (·.filter p)).flatten.length ≤ l.flatten.length ∧
      ((l.modify n (·.filter p)).flatten.length = l.flatten.length →
        l.modify n (·.filter p) = l) := by
  induction l generalizing n with
  | nil => simp
  | cons ds rest ih =>
      cases n with
      | zero =>
          have hle : (ds.filter p).length ≤ ds.length := List.length_filter_le p ds
          simp only [List.modify_zero_cons, List.flatten_cons, List.length_append, List.cons.injEq,
            and_true]
          refine ⟨by omega, fun heq => ?_⟩
          exact List.filter_sublist.eq_of_length (by omega)
      | succ n =>
          obtain ⟨hle, heq⟩ := ih n
          simp only [List.modify_succ_cons, List.flatten_cons, List.length_append, List.cons.injEq,
            true_and]
          exact ⟨by omega, fun h => heq (by omega)⟩

/-- A step of the iteration drops dominators, or leaves all as they are. -/
theorem dominatorCount_restrict (preds : List Nat) (dom : Array (List Nat)) (n : Nat) :
    dominatorCount (restrict preds dom n) ≤ dominatorCount dom ∧
      (dominatorCount (restrict preds dom n) = dominatorCount dom → restrict preds dom n = dom) := by
  unfold dominatorCount restrict
  rw [Array.toList_modify]
  obtain ⟨hle, heq⟩ := length_modify_filter
    (fun d => d == n || preds.all fun p => (dom[p]?.getD []).contains d) dom.toList n
  exact ⟨hle, fun h => Array.toList_inj.1 (by rw [Array.toList_modify]; exact heq h)⟩

/-- A pass drops dominators, or leaves all as they are. -/
theorem dominatorCount_foldl (before : Nat → List Nat) (ns : List Nat) (dom : Array (List Nat)) :
    dominatorCount (ns.foldl (fun dom n => restrict (before n) dom n) dom) ≤ dominatorCount dom ∧
      (dominatorCount (ns.foldl (fun dom n => restrict (before n) dom n) dom) = dominatorCount dom →
        ns.foldl (fun dom n => restrict (before n) dom n) dom = dom) := by
  induction ns generalizing dom with
  | nil => simp
  | cons n ns ih =>
      obtain ⟨hle, heq⟩ := dominatorCount_restrict (before n) dom n
      obtain ⟨hle', heq'⟩ := ih (restrict (before n) dom n)
      rw [List.foldl_cons]
      refine ⟨by omega, fun h => ?_⟩
      rw [heq' (by omega)]
      exact heq (by omega)

/-- Repeat the pass until it changes nothing. -/
def settle (g : FlowGraph) (reach : Relation) (dom : Array (List Nat)) : Array (List Nat) :=
  if g.sweep reach dom = dom then dom else g.settle reach (g.sweep reach dom)
termination_by dominatorCount dom
decreasing_by
  rename_i hne
  obtain ⟨hle, heq⟩ := dominatorCount_foldl (g.preds reach) (g.nodes reach).tail dom
  exact Nat.lt_of_le_of_ne hle fun h => hne (heq h)

/-- The dominators of every node. -/
def dominators (g : FlowGraph) (reach : Relation) : Array (List Nat) :=
  g.settle reach g.initialDominators

/-- The blocks on every way from the entry to an exit. When no exit can be reached, only the entry
    counts. -/
def unavoidable (g : FlowGraph) (reach : Relation) : List Nat :=
  if (g.preds reach g.size).isEmpty then g.blocks.filter (· == 0)
  else
    let ofExit := (g.dominators reach)[g.size]?.getD []
    g.blocks.filter ofExit.contains

end FlowGraph

end Lockstep
