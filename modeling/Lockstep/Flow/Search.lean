import Lockstep.Flow.Graph

set_option autoImplicit false

/-! # Search by levels

A search looks at the blocks that a block leads to, then at those that these lead to, and so forth. It
goes on from a block only once: the block is marked then, and a marked block is put on no level. -/

namespace Lockstep

/-- Where a search has come to. -/
structure Front where
  /-- The blocks that it looks at next. -/
  level : List Nat
  /-- For each block, whether the search has gone on from it. -/
  seen : Array Bool
deriving Repr, Inhabited, DecidableEq

namespace Front

/-- Put a block on a level, unless it is marked or there already. -/
def push (seen : Array Bool) (level : List Nat) (b : Nat) : List Nat :=
  if seen[b]? = some false ∧ b ∉ level then level ++ [b] else level

/-- How many more levels there are at most: one for each block without a mark, and this one. -/
def todo (f : Front) : Nat := f.seen.count false + if f.level = [] then 0 else 1

end Front

namespace FlowGraph

/-- The first level of the search from a block. -/
def frontOf (g : FlowGraph) (block : Nat) : Front :=
  { level := g.successors block, seen := Array.replicate g.size false }

/-- Go on from a block, unless that was done before: mark it, and put the blocks that it leads to on
    the level. -/
def expand (g : FlowGraph) (f : Front) (b : Nat) : Front :=
  if f.seen[b]? = some false then
    let seen := f.seen.setIfInBounds b true
    { seen, level := (g.successors b).foldl (Front.push seen) f.level }
  else f

/-- Go on from the blocks of a level to the next one. -/
def pass (g : FlowGraph) (f : Front) : Front := f.level.foldl g.expand { f with level := [] }

theorem todo_frontOf (g : FlowGraph) (block : Nat) : (g.frontOf block).todo ≤ g.size + 1 := by
  unfold frontOf Front.todo
  simp only [Array.count_replicate_self]
  split <;> omega

/-- To go on from blocks marks some of them, or does nothing. -/
theorem count_foldl_expand (g : FlowGraph) (bs : List Nat) (f : Front) :
    (bs.foldl g.expand f).seen.count false < f.seen.count false ∨ bs.foldl g.expand f = f := by
  induction bs generalizing f with
  | nil => exact .inr rfl
  | cons b bs ih =>
      rw [List.foldl_cons]
      by_cases hb : f.seen[b]? = some false
      · have hcount : (g.expand f b).seen.count false < f.seen.count false := by
          simp only [expand, if_pos hb]
          have := count_mark hb
          omega
        left
        rcases ih (g.expand f b) with h | h
        · omega
        · rwa [h]
      · have hexpand : g.expand f b = f := by simp only [expand, if_neg hb]
        rw [hexpand]
        exact ih f

/-- On the next level there is less to do. -/
theorem todo_pass (g : FlowGraph) {f : Front} (h : f.level ≠ []) : (g.pass f).todo < f.todo := by
  unfold pass Front.todo
  rw [if_neg h]
  rcases g.count_foldl_expand f.level { f with level := [] } with hlt | heq
  · dsimp only at hlt
    split <;> omega
  · simp [heq]

end FlowGraph

end Lockstep
