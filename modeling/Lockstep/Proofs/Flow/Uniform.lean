import Lockstep.Proofs.Flow.Dominance
import Mathlib.Data.Set.Basic

set_option autoImplicit false

/-! # The order of uniform blocks

Every run meets the uniform blocks in the same order, unless it is caught in a part of the graph that
no exit can be reached from. What a run has not passed yet is the set of the uniform blocks ahead of
it: a link drops at most the block that it leaves, or it drops them all (`ahead_of_link`). Two
uniform blocks with the same blocks ahead are one block (`eq_of_ahead_eq`). -/

namespace Lockstep

/-- A block that every run to an exit passes exactly once. -/
def Uniform (link : Nat → Nat → Prop) (b : Nat) : Prop :=
  Unavoidable link b ∧ ¬ Relation.TransGen link b b

/-- The uniform blocks that can be reached from a block, which may be one of them. -/
def ahead (link : Nat → Nat → Prop) (b : Nat) : Set Nat :=
  {w | Uniform link w ∧ Relation.ReflTransGen link b w}

/-- Two blocks with the same uniform blocks ahead, unless one of them has none. -/
def SameAhead (link : Nat → Nat → Prop) (b c : Nat) : Prop :=
  ahead link b = ∅ ∨ ahead link c = ∅ ∨ ahead link b = ahead link c

variable {link : Nat → Nat → Prop} {b c x y : Nat}

/-- An uniform block can only be avoided where no exit can be reached. -/
theorem Unavoidable.mem_walk (h : Unavoidable link b) {p : List Nat} {e : Nat}
    (hp : Walk link 0 p e) (he : ∀ t, ¬ link e t) : b ∈ p := by
  rcases h with ⟨-, h⟩ | ⟨hno, -⟩
  · exact h p e hp he
  · exact absurd ⟨e, hp.reachable, he⟩ hno

/-- From an unavoidable block an exit can be reached, if one can be reached at all. -/
theorem Unavoidable.exists_exit (h : Unavoidable link b) :
    b = 0 ∨ ∃ e, Relation.ReflTransGen link b e ∧ ∀ t, ¬ link e t := by
  rcases h with ⟨⟨e, hreach, he⟩, h⟩ | ⟨-, rfl⟩
  · obtain ⟨p, hp⟩ := exists_walk hreach
    exact .inr ⟨e, (hp.between (h p e hp he)).2, he⟩
  · exact .inl rfl

/-- Of a link from a block that can be reached: the block that it leads to has no uniform block
    ahead, or exactly those that lie behind the link. -/
theorem ahead_of_link (hb : Relation.ReflTransGen link 0 b) (hbx : link b x) :
    ahead link x = ∅ ∨ ahead link x = {w | Uniform link w ∧ Relation.TransGen link b w} := by
  by_cases hexit : ∃ e, Relation.ReflTransGen link x e ∧ ∀ t, ¬ link e t
  · obtain ⟨e, hxe, he⟩ := hexit
    refine .inr (Set.ext fun w => ⟨fun ⟨hw, hxw⟩ => ⟨hw, .head' hbx hxw⟩, fun ⟨hw, hbw⟩ => ?_⟩)
    obtain ⟨p, hp⟩ := exists_walk hb
    obtain ⟨q, hq⟩ := exists_walk hxe
    -- a run to the exit passes the uniform block, and it cannot do so before the link
    rcases List.mem_append.1 (hw.1.mem_walk ((hp.snoc hbx).append hq) he) with h | h
    · rcases List.mem_append.1 h with h | h
      · exact absurd (cycle_of_before_after (hp.between h).2 hbw) hw.2
      · obtain rfl := List.mem_singleton.1 h
        exact ⟨hw, .refl⟩
    · exact ⟨hw, (hq.between (List.mem_of_mem_tail h)).1⟩
  · refine .inl (Set.eq_empty_iff_forall_notMem.2 fun w hw => ?_)
    obtain ⟨hw, hxw⟩ := hw
    -- it would lead on to an exit, or it is the entry and lies on a cycle
    rcases hw.1.exists_exit with rfl | ⟨e, hwe, he⟩
    · exact hw.2 (Relation.TransGen.trans_right hb (.head' hbx hxw))
    · exact hexit ⟨e, hxw.trans hwe, he⟩

theorem mem_ahead_self (h : Uniform link b) : b ∈ ahead link b := ⟨h, .refl⟩

/-- A link from a block that is not uniform keeps the uniform blocks ahead, or drops all. -/
theorem ahead_of_link_of_not_uniform (hb : Relation.ReflTransGen link 0 b) (hbx : link b x)
    (hno : ¬ Uniform link b) : ahead link x = ∅ ∨ ahead link x = ahead link b := by
  refine (ahead_of_link hb hbx).imp id fun h => h.trans (Set.ext fun w => ?_)
  refine ⟨fun ⟨hw, hbw⟩ => ⟨hw, hbw.to_reflTransGen⟩, fun ⟨hw, hbw⟩ => ⟨hw, ?_⟩⟩
  rcases Relation.reflTransGen_iff_eq_or_transGen.1 hbw with rfl | hbw
  · exact absurd hw hno
  · exact hbw

/-- A run that is in an uniform block has not passed the others that it has ahead. -/
theorem eq_of_ahead_eq (hb : Uniform link b) (hc : Uniform link c)
    (h : ahead link b = ahead link c) : b = c := by
  have hcb : Relation.ReflTransGen link c b := (h ▸ mem_ahead_self hb : b ∈ ahead link c).2
  have hbc : Relation.ReflTransGen link b c := (h ▸ mem_ahead_self hc : c ∈ ahead link b).2
  rcases Relation.reflTransGen_iff_eq_or_transGen.1 hbc with hcb' | hbc'
  · exact hcb'.symm
  · exact absurd (Relation.TransGen.trans_left hbc' hcb) hb.2

namespace SameAhead

theorem symm (h : SameAhead link b c) : SameAhead link c b := by
  rcases h with h | h | h
  · exact .inr (.inl h)
  · exact .inl h
  · exact .inr (.inr h.symm)

theorem refl (b : Nat) : SameAhead link b b := .inr (.inr rfl)

/-- Two uniform blocks with the same blocks ahead are one. -/
theorem eq_of_uniform (h : SameAhead link b c) (hb : Uniform link b) (hc : Uniform link c) :
    b = c := by
  rcases h with h | h | h
  · exact absurd (h ▸ mem_ahead_self hb) (Set.notMem_empty b)
  · exact absurd (h ▸ mem_ahead_self hc) (Set.notMem_empty c)
  · exact eq_of_ahead_eq hb hc h

/-- Two links from one block. -/
theorem of_links (hb : Relation.ReflTransGen link 0 b) (hbx : link b x) (hby : link b y) :
    SameAhead link x y := by
  rcases ahead_of_link hb hbx with hx | hx
  · exact .inl hx
  · rcases ahead_of_link hb hby with hy | hy
    · exact .inr (.inl hy)
    · exact .inr (.inr (hx.trans hy.symm))

/-- A run that goes on along a link leaves a block that is not uniform, or stays where it is. -/
theorem move (h : SameAhead link b c) (hb : Relation.ReflTransGen link 0 b)
    (hbx : x = b ∨ (link b x ∧ ¬ Uniform link b)) : SameAhead link x c := by
  rcases hbx with rfl | ⟨hbx, hno⟩
  · exact h
  · rcases ahead_of_link_of_not_uniform hb hbx hno with hx | hx
    · exact .inl hx
    · rwa [SameAhead, hx]

end SameAhead

namespace ControlFlow

/-- The reachability table of given links is exact. -/
theorem reach_ofLinks (n : Nat) (links : List (Nat × Nat)) (a b : Nat) :
    (ofLinks n links).reach.holds a b ↔ Relation.TransGen (fun x y => (x, y) ∈ links) a b := by
  rw [← FlowGraph.link_ofLinks_eq n]
  exact FlowGraph.reachTable_holds (FlowGraph.closed_ofLinks n links) a b

/-- The test for loops is exact. -/
theorem isLoop_ofLinks (n : Nat) (links : List (Nat × Nat)) (b : Nat) :
    (ofLinks n links).isLoop b ↔ Relation.TransGen (fun x y => (x, y) ∈ links) b b := by
  rw [← FlowGraph.link_ofLinks_eq n]
  exact isLoop_ofGraph (FlowGraph.closed_ofLinks n links) b

/-- The test for uniform blocks is exact. -/
theorem isUniform_ofLinks (n : Nat) (links : List (Nat × Nat)) (b : Nat) :
    (ofLinks n links).isUniform b ↔
      0 < (FlowGraph.ofLinks n links).size ∧ Uniform (fun x y => (x, y) ∈ links) b := by
  rw [Uniform, ← FlowGraph.link_ofLinks_eq n, ← and_assoc]
  exact List.contains_iff_mem.trans (mem_uniform_ofGraph (FlowGraph.closed_ofLinks n links) b)

/-- Only blocks of the graph are related. -/
theorem lt_of_reach_ofLinks {n : Nat} {links : List (Nat × Nat)} {a b : Nat}
    (h : (ofLinks n links).reach.holds a b) :
    a < (ofLinks n links).graph.size ∧ b < (ofLinks n links).graph.size := by
  rw [reach_ofLinks, ← FlowGraph.link_ofLinks_eq n] at h
  obtain ⟨x, hax, -⟩ := Relation.TransGen.head'_iff.1 h
  obtain ⟨y, -, hyb⟩ := Relation.TransGen.tail'_iff.1 h
  exact ⟨FlowGraph.lt_size_of_link hax, FlowGraph.closed_ofLinks n links y b hyb⟩

/-- What the analysis of given links says about paths. One block is related to another one exactly
    when a walk of one or more links leads from it to the other, and no number outside the graph is
    related to any. The loop blocks, in ascending order, are the blocks that such a walk leads back
    to. -/
theorem reach_ofLinks_iff_walk (n : Nat) (links : List (Nat × Nat)) :
    (∀ a b, (ofLinks n links).reach.holds a b ↔
      ∃ p, Walk (fun x y => (x, y) ∈ links) a p b ∧ 1 < p.length) ∧
    (∀ a b, (ofLinks n links).graph.size ≤ a ∨ (ofLinks n links).graph.size ≤ b →
      (ofLinks n links).reach.holds a b = false) ∧
    (ofLinks n links).loops.Pairwise (· < ·) ∧
    ∀ b, b ∈ (ofLinks n links).loops ↔
      ∃ p, Walk (fun x y => (x, y) ∈ links) b p b ∧ 1 < p.length := by
  refine ⟨fun a b => (reach_ofLinks n links a b).trans transGen_iff_exists_walk, ?_, ?_, fun b => ?_⟩
  · intro a b houtside
    by_contra hholds
    have hlt := lt_of_reach_ofLinks (Bool.eq_true_of_not_eq_false hholds)
    omega
  · -- the loop blocks are picked from the blocks in their order
    exact List.pairwise_lt_range.filter _
  · calc b ∈ (ofLinks n links).loops
        ↔ (ofLinks n links).isLoop b := List.contains_iff_mem.symm
      _ ↔ Relation.TransGen (fun x y => (x, y) ∈ links) b b := isLoop_ofLinks n links b
      _ ↔ _ := transGen_iff_exists_walk

end ControlFlow

end Lockstep
