import Lockstep.Proofs.Flow.Paths
import Mathlib.Data.List.Sort

set_option autoImplicit false

/-! # Dominators and uniform blocks

The passes over the dominators stop (`settle_spec`), and what is left at the node after the last
block is what all walks to it pass: a dominator that lies on every walk is never dropped
(`mem_dominators_of_every`), and one that survives a pass that changes nothing lies on every walk
(`mem_walk_of_settled`). So the uniform blocks of a function are exactly the blocks on all walks from
the entry to an exit that lie on no cycle (`uniform_ofLinks_iff_unavoidable`). -/

namespace Lockstep

/-- A block that every walk from the entry to a block without links passes. When no block without
    links can be reached, only the entry is. -/
def Unavoidable (link : Nat → Nat → Prop) (b : Nat) : Prop :=
  ((∃ e, Relation.ReflTransGen link 0 e ∧ ∀ t, ¬ link e t) ∧
      ∀ p e, Walk link 0 p e → (∀ t, ¬ link e t) → b ∈ p) ∨
    ((¬ ∃ e, Relation.ReflTransGen link 0 e ∧ ∀ t, ¬ link e t) ∧ b = 0)

namespace FlowGraph

/-! ## Links to the node after the last block -/

/-- A link of the graph, or that of an exit to the node after the last block. -/
def LinkOut (g : FlowGraph) (a b : Nat) : Prop :=
  g.link a b ∨ (b = g.size ∧ a < g.size ∧ g.isExit a)

variable {g : FlowGraph}

theorem LinkOut.lt_size {a b : Nat} (h : g.LinkOut a b) : a < g.size := by
  rcases h with h | ⟨-, h, -⟩
  · exact lt_size_of_link h
  · exact h

theorem LinkOut.le_size (hg : g.Closed) {a b : Nat} (h : g.LinkOut a b) : b ≤ g.size := by
  rcases h with h | ⟨rfl, -, -⟩
  · exact (hg a b h).le
  · exact le_rfl

/-- A walk that has not left the blocks goes along links of the graph. -/
theorem walk_of_walkOut {p : List Nat} {e : Nat} (h : Walk g.LinkOut 0 p e) (he : e < g.size) :
    Walk (fun a b => g.link a b) 0 p e := by
  induction h with
  | nil => exact .nil
  | snoc _ hab ih =>
      rcases hab with hab | ⟨rfl, -, -⟩
      · exact (ih (lt_size_of_link hab)).snoc hab
      · exact absurd he (lt_irrefl _)

theorem walkOut_of_walk {p : List Nat} {e : Nat} (h : Walk (fun a b => g.link a b) 0 p e) :
    Walk g.LinkOut 0 p e :=
  h.mono fun _ _ => .inl

/-- No walk passes more than the blocks and the node after them. -/
theorem le_size_of_mem_walkOut (hg : g.Closed) {p : List Nat} {e d : Nat}
    (h : Walk g.LinkOut 0 p e) (hd : d ∈ p) : d ≤ g.size := by
  induction h with
  | nil =>
      obtain rfl := List.mem_singleton.1 hd
      exact Nat.zero_le _
  | snoc _ hab ih =>
      rcases List.mem_append.1 hd with hd | hd
      · exact ih hd
      · obtain rfl := List.mem_singleton.1 hd
        exact hab.le_size hg

/-- The nodes before a node are those that can be reached and lead to it. -/
theorem mem_preds (hg : g.Closed) {n p : Nat} (hn : n ≤ g.size) :
    p ∈ g.preds g.reachTable n ↔
      Relation.ReflTransGen (fun a b => g.link a b) 0 p ∧ g.LinkOut p n := by
  simp only [preds, blocks, List.mem_filter, List.mem_range, Bool.and_eq_true,
    reachTable_holdsOrSame hg]
  constructor
  · rintro ⟨hp, hreach, h⟩
    refine ⟨hreach, ?_⟩
    split at h
    · next hsize => exact .inr ⟨hsize, hp, h⟩
    · exact .inl h
  · rintro ⟨hreach, h⟩
    refine ⟨h.lt_size, hreach, ?_⟩
    rcases h with h | ⟨rfl, -, h⟩
    · rw [if_neg (hg p n h).ne]
      exact h
    · rw [if_pos rfl]
      exact h

/-- The passes visit every node that can be reached, other than the entry. -/
theorem mem_tail_nodes (hg : g.Closed) (hpos : 0 < g.size) {n : Nat} :
    n ∈ (g.nodes g.reachTable).tail ↔
      n ≠ 0 ∧ (n = g.size ∨ (n < g.size ∧ Relation.ReflTransGen (fun a b => g.link a b) 0 n)) := by
  obtain ⟨k, hk⟩ := Nat.exists_eq_succ_of_ne_zero hpos.ne'
  have hzero : g.reachTable.holdsOrSame 0 0 = true := by simp [Relation.holdsOrSame]
  have hnodes : g.nodes g.reachTable =
      0 :: (((List.range k).map Nat.succ).filter (g.reachTable.holdsOrSame 0) ++ [g.size]) := by
    unfold nodes blocks
    rw [hk, List.range_succ_eq_map, List.filter_cons_of_pos hzero, List.cons_append]
  rw [hnodes, List.tail_cons, List.mem_append, List.mem_singleton, List.mem_filter,
    reachTable_holdsOrSame hg]
  constructor
  · rintro (⟨hn, hreach⟩ | rfl)
    · obtain ⟨m, hm, rfl⟩ := List.mem_map.1 hn
      rw [List.mem_range] at hm
      exact ⟨Nat.succ_ne_zero m, .inr ⟨by omega, hreach⟩⟩
    · exact ⟨hpos.ne', .inl rfl⟩
  · rintro ⟨hne, rfl | ⟨hlt, hreach⟩⟩
    · exact .inr rfl
    · obtain ⟨m, rfl⟩ := Nat.exists_eq_succ_of_ne_zero hne
      exact .inl ⟨List.mem_map.2 ⟨m, List.mem_range.2 (by omega), rfl⟩, hreach⟩

/-! ## What a pass keeps -/

/-- The dominators that a table has for a node. -/
def dominatorsOf (dom : Array (List Nat)) (n : Nat) : List Nat := dom[n]?.getD []

theorem mem_restrict (ps : List Nat) (dom : Array (List Nat)) (n m d : Nat) :
    d ∈ dominatorsOf (restrict ps dom n) m ↔
      d ∈ dominatorsOf dom m ∧ (m = n → d = n ∨ ∀ p ∈ ps, d ∈ dominatorsOf dom p) := by
  unfold dominatorsOf restrict
  rw [Array.getElem?_modify]
  by_cases hmn : n = m
  · subst hmn
    cases dom[n]? with
    | none => simp
    | some ds => simp
  · have hne : m ≠ n := fun h => hmn h.symm
    simp [hmn, hne]

/-- What holds of a table and is kept when the dominators of a node are restricted holds after a
    pass. -/
theorem sweep_induction {P : Array (List Nat) → Prop} {reach : Relation}
    (hstep : ∀ dom, ∀ n ∈ (g.nodes reach).tail, P dom → P (restrict (g.preds reach n) dom n))
    {dom : Array (List Nat)} (h : P dom) : P (g.sweep reach dom) := by
  unfold sweep
  generalize (g.nodes reach).tail = ns at hstep ⊢
  induction ns generalizing dom with
  | nil => exact h
  | cons n ns ih =>
      rw [List.foldl_cons]
      exact ih (hstep dom n (List.mem_cons_self ..) h)
        fun dom' m hm => hstep dom' m (List.mem_cons_of_mem _ hm)

/-- What holds before the passes and is kept when the dominators of a node are restricted holds of
    the dominators. -/
theorem dominators_induction {P : Array (List Nat) → Prop} {reach : Relation}
    (hstep : ∀ dom, ∀ n ∈ (g.nodes reach).tail, P dom → P (restrict (g.preds reach n) dom n))
    (h : P g.initialDominators) : P (g.dominators reach) := by
  unfold dominators
  generalize g.initialDominators = dom at h
  fun_induction settle g reach dom with
  | case1 dom _ => exact h
  | case2 dom _ ih => exact ih (sweep_induction hstep h)

/-- The passes stop, after at most as many as there are pairs of a node and a dominator, and one
    more pass would change nothing. -/
theorem settle_spec (reach : Relation) (dom : Array (List Nat)) :
    (∃ k ≤ dominatorCount dom, (g.sweep reach)^[k] dom = g.settle reach dom) ∧
      g.sweep reach (g.settle reach dom) = g.settle reach dom := by
  fun_induction settle g reach dom with
  | case1 dom h => exact ⟨⟨0, Nat.zero_le _, rfl⟩, h⟩
  | case2 dom hne ih =>
      obtain ⟨⟨k, hk, hiter⟩, hfix⟩ := ih
      obtain ⟨hle, heq⟩ := dominatorCount_foldl (g.preds reach) (g.nodes reach).tail dom
      -- a pass only drops dominators, so one that changes something leaves fewer
      have hlt : dominatorCount (g.sweep reach dom) < dominatorCount dom :=
        lt_of_le_of_ne hle fun h => hne (heq h)
      exact ⟨⟨k + 1, by omega, hiter⟩, hfix⟩

/-- A pass that changes nothing changes nothing at any node. -/
theorem restrict_of_sweep {reach : Relation} {dom : Array (List Nat)}
    (h : g.sweep reach dom = dom) {n : Nat} (hn : n ∈ (g.nodes reach).tail) :
    restrict (g.preds reach n) dom n = dom := by
  unfold sweep at h
  generalize (g.nodes reach).tail = ns at h hn
  induction ns with
  | nil => simp at hn
  | cons m ns ih =>
      rw [List.foldl_cons] at h
      -- a dominator that is dropped at this node would be missing in the end
      obtain ⟨hle, heq⟩ := dominatorCount_restrict (g.preds reach m) dom m
      obtain ⟨hle', -⟩ := dominatorCount_foldl (g.preds reach) ns (restrict (g.preds reach m) dom m)
      rw [h] at hle'
      have hm : restrict (g.preds reach m) dom m = dom := heq (by omega)
      rw [hm] at h
      rcases List.mem_cons.1 hn with rfl | hn
      · exact hm
      · exact ih h hn

/-! ## The dominators are what lies on every walk -/

theorem mem_initialDominators {n d : Nat} (hn : n ≤ g.size) :
    d ∈ dominatorsOf g.initialDominators n ↔ if n = 0 then d = 0 else d ≤ g.size := by
  unfold dominatorsOf initialDominators
  rw [Array.getElem?_ofFn, dif_pos (by omega)]
  by_cases h : n = 0
  · simp [h]
  · simp only [h, if_false, Option.getD_some, List.mem_range, Nat.lt_add_one_iff]

/-- A node that every walk to another one passes, when there are such walks. -/
def Dominates (g : FlowGraph) (d n : Nat) : Prop :=
  (∃ p, Walk g.LinkOut 0 p n) ∧ ∀ p, Walk g.LinkOut 0 p n → d ∈ p

theorem Dominates.le_size (hg : g.Closed) {d n : Nat} (h : g.Dominates d n) :
    d ≤ g.size ∧ n ≤ g.size := by
  obtain ⟨⟨p, hp⟩, hevery⟩ := h
  exact ⟨le_size_of_mem_walkOut hg hp (hevery p hp), le_size_of_mem_walkOut hg hp hp.end_mem⟩

/-- What dominates a node other than itself dominates every node before it. -/
theorem Dominates.of_linkOut {d n q : Nat} (h : g.Dominates d n) (hne : d ≠ n)
    (hreach : Relation.ReflTransGen (fun a b => g.link a b) 0 q) (hlink : g.LinkOut q n) :
    g.Dominates d q := by
  obtain ⟨p, hp⟩ := exists_walk hreach
  refine ⟨⟨p, walkOut_of_walk hp⟩, ?_⟩
  intro p' hp'
  rcases List.mem_append.1 (h.2 _ (hp'.snoc hlink)) with h | h
  · exact h
  · exact absurd (List.mem_singleton.1 h) hne

/-- What lies on every walk to a node is not dropped from its dominators. -/
theorem mem_dominators_of_every (hg : g.Closed) {n d : Nat} (h : g.Dominates d n) :
    d ∈ dominatorsOf (g.dominators g.reachTable) n := by
  -- of all nodes at once, because a node keeps what those before it have kept
  refine dominators_induction (P := fun dom => ∀ n d, g.Dominates d n → d ∈ dominatorsOf dom n)
    (fun dom m _ ih => ?_) ?_ n d h
  · intro n d h
    refine (mem_restrict _ _ _ _ _).2 ⟨ih n d h, ?_⟩
    rintro rfl
    by_cases hdn : d = n
    · exact .inl hdn
    · refine .inr fun q hq => ih q d ?_
      obtain ⟨hreach, hlink⟩ := (mem_preds hg (h.le_size hg).2).1 hq
      exact h.of_linkOut hdn hreach hlink
  · intro n d h
    refine (mem_initialDominators (h.le_size hg).2).2 ?_
    split
    · next hn =>
        subst hn
        exact List.mem_singleton.1 (h.2 _ .nil)
    · exact (h.le_size hg).1

/-- Only the entry is left as a dominator of the entry. -/
theorem dominators_entry (reach : Relation) {d : Nat}
    (hd : d ∈ dominatorsOf (g.dominators reach) 0) : d = 0 := by
  refine dominators_induction (P := fun dom => ∀ d ∈ dominatorsOf dom 0, d = 0)
    (fun dom m _ ih => ?_) ?_ d hd
  · intro d hd
    exact ih d ((mem_restrict _ _ _ _ _).1 hd).1
  · intro d hd
    simpa using (mem_initialDominators (Nat.zero_le _)).1 hd

/-- A dominator that a pass leaves in place lies on every walk to its node. -/
theorem mem_walk_of_settled (hg : g.Closed) {p : List Nat} {n d : Nat}
    (hp : Walk g.LinkOut 0 p n) (hd : d ∈ dominatorsOf (g.dominators g.reachTable) n) : d ∈ p := by
  -- along the walk: what the node before does not have, the next pass would drop
  induction hp with
  | nil => exact List.mem_singleton.2 (dominators_entry _ hd)
  | @snoc p a b hp hab ih =>
      by_cases hb : b = 0
      · subst hb
        rw [dominators_entry _ hd]
        exact List.mem_append_left _ hp.start_mem
      · have hreach := (walk_of_walkOut hp hab.lt_size).reachable
        have hb' : b ∈ (g.nodes g.reachTable).tail := by
          refine (mem_tail_nodes hg (Nat.zero_lt_of_lt hab.lt_size)).2 ⟨hb, ?_⟩
          rcases hab with hab | ⟨rfl, -, -⟩
          · exact .inr ⟨hg a b hab, hreach.tail hab⟩
          · exact .inl rfl
        have hfix := restrict_of_sweep (settle_spec g.reachTable g.initialDominators).2 hb'
        have hd' : d ∈ dominatorsOf (restrict (g.preds g.reachTable b)
            (g.settle g.reachTable g.initialDominators) b) b := by rwa [hfix]
        rcases ((mem_restrict _ _ _ _ _).1 hd').2 rfl with rfl | h
        · exact List.mem_append_right _ (List.mem_singleton.2 rfl)
        · refine List.mem_append_left _ (ih (h a ?_))
          exact (mem_preds hg (hab.le_size hg)).2 ⟨hreach, hab⟩

/-- An exit that can be reached from the entry. -/
def ExitReached (g : FlowGraph) : Prop :=
  ∃ e, Relation.ReflTransGen (fun a b => g.link a b) 0 e ∧ ∀ t, ¬ g.link e t

theorem lt_size_of_reachable (hg : g.Closed) (hpos : 0 < g.size) {e : Nat}
    (h : Relation.ReflTransGen (fun a b => g.link a b) 0 e) : e < g.size := by
  rcases Relation.ReflTransGen.cases_tail h with rfl | ⟨a, -, hab⟩
  · exact hpos
  · exact hg _ _ hab

/-- A block dominates the node after the last block when all walks to an exit pass it. -/
theorem mem_dominators_exit (hg : g.Closed) {b : Nat} (hb : b < g.size) (hexit : g.ExitReached) :
    b ∈ dominatorsOf (g.dominators g.reachTable) g.size ↔
      ∀ p e, Walk (fun x y => g.link x y) 0 p e → (∀ t, ¬ g.link e t) → b ∈ p := by
  have hpos : 0 < g.size := Nat.zero_lt_of_lt hb
  constructor
  · intro hd p e hp he
    have hlt := lt_size_of_reachable hg hpos hp.reachable
    have hout := (walkOut_of_walk hp).snoc (.inr ⟨rfl, hlt, (g.isExit_iff e).2 he⟩)
    rcases List.mem_append.1 (mem_walk_of_settled hg hout hd) with h | h
    · exact h
    · exact absurd (List.mem_singleton.1 h) hb.ne
  · intro h
    obtain ⟨e, hreach, he⟩ := hexit
    have hlt := lt_size_of_reachable hg hpos hreach
    obtain ⟨q, hq⟩ := exists_walk hreach
    refine mem_dominators_of_every hg
      ⟨⟨_, (walkOut_of_walk hq).snoc (.inr ⟨rfl, hlt, (g.isExit_iff e).2 he⟩)⟩, fun p hp => ?_⟩
    -- the last link of a walk to the node after the last block comes from an exit
    generalize hs : g.size = s at hp
    cases hp with
    | nil => omega
    | snoc hp hab =>
        subst hs
        rcases hab with hab | ⟨-, ha, hae⟩
        · exact absurd (hg _ _ hab) (lt_irrefl _)
        · exact List.mem_append_left _ (h _ _ (walk_of_walkOut hp ha) ((g.isExit_iff _).1 hae))

theorem isEmpty_preds_exit (hg : g.Closed) (hpos : 0 < g.size) :
    (g.preds g.reachTable g.size).isEmpty ↔ ¬ g.ExitReached := by
  rw [List.isEmpty_iff, List.eq_nil_iff_forall_not_mem]
  constructor
  · rintro h ⟨e, hreach, he⟩
    have hlt := lt_size_of_reachable hg hpos hreach
    exact h e ((mem_preds hg le_rfl).2 ⟨hreach, .inr ⟨rfl, hlt, (g.isExit_iff e).2 he⟩⟩)
  · rintro h e he
    obtain ⟨hreach, hlink⟩ := (mem_preds hg le_rfl).1 he
    rcases hlink with hlink | ⟨-, -, hexit⟩
    · exact absurd (hg _ _ hlink) (lt_irrefl _)
    · exact h ⟨e, hreach, (g.isExit_iff e).1 hexit⟩

/-- The unavoidable blocks of a graph are the blocks that no walk to an exit avoids. -/
theorem mem_unavoidable (hg : g.Closed) (b : Nat) :
    b ∈ g.unavoidable g.reachTable ↔
      0 < g.size ∧ Unavoidable (fun x y => g.link x y) b := by
  have hblock : b ∈ g.blocks ↔ b < g.size := List.mem_range
  unfold unavoidable Unavoidable
  by_cases hpos : 0 < g.size
  · by_cases hexit : g.ExitReached
    · rw [if_neg fun h => (isEmpty_preds_exit hg hpos).1 h hexit, List.mem_filter, hblock]
      constructor
      · rintro ⟨hb, hd⟩
        refine ⟨hpos, .inl ⟨hexit, (mem_dominators_exit hg hb hexit).1 ?_⟩⟩
        exact List.contains_iff_mem.1 hd
      · rintro ⟨-, ⟨-, h⟩ | ⟨hno, -⟩⟩
        · obtain ⟨e, hreach, he⟩ := hexit
          obtain ⟨q, hq⟩ := exists_walk hreach
          have hb := lt_size_of_reachable hg hpos (hq.between (h q e hq he)).1
          exact ⟨hb, List.contains_iff_mem.2 ((mem_dominators_exit hg hb ⟨e, hreach, he⟩).2 h)⟩
        · exact absurd hexit hno
    · rw [if_pos ((isEmpty_preds_exit hg hpos).2 hexit), List.mem_filter, hblock, beq_iff_eq]
      constructor
      · rintro ⟨-, rfl⟩
        exact ⟨hpos, .inr ⟨hexit, rfl⟩⟩
      · rintro ⟨-, ⟨hex, -⟩ | ⟨-, rfl⟩⟩
        · exact absurd hex hexit
        · exact ⟨hpos, rfl⟩
  · have hblocks : g.blocks = [] := by simp [blocks, Nat.eq_zero_of_not_pos hpos]
    simp [hblocks, hpos]

end FlowGraph

namespace ControlFlow

/-! ## Uniform blocks -/

theorem isLoop_ofGraph {g : FlowGraph} (hg : g.Closed) (b : Nat) :
    (ofGraph g).isLoop b ↔ Relation.TransGen (fun x y => g.link x y) b b := by
  unfold isLoop ofGraph
  rw [List.contains_iff_mem, List.mem_filter, FlowGraph.reachTable_holds hg]
  refine ⟨And.right, fun h => ⟨List.mem_range.2 ?_, h⟩⟩
  obtain ⟨c, hbc, -⟩ := Relation.TransGen.head'_iff.1 h
  exact FlowGraph.lt_size_of_link hbc

/-- The uniform blocks of a graph are the unavoidable blocks that lie on no cycle. -/
theorem mem_uniform_ofGraph {g : FlowGraph} (hg : g.Closed) (b : Nat) :
    b ∈ (ofGraph g).uniform ↔
      (0 < g.size ∧ Unavoidable (fun x y => g.link x y) b) ∧
        ¬ Relation.TransGen (fun x y => g.link x y) b b := by
  rw [← isLoop_ofGraph hg, ← FlowGraph.mem_unavoidable hg, Bool.not_eq_true, ← Bool.not_eq_true']
  exact List.mem_filter

theorem pairwise_uniform_ofGraph (g : FlowGraph) : (ofGraph g).uniform.Pairwise (· < ·) := by
  unfold ofGraph FlowGraph.unavoidable
  refine List.Pairwise.filter _ ?_
  split <;> exact List.Pairwise.filter _ List.pairwise_lt_range

/-- The analysis of given links stops, and its uniform blocks are, in ascending order, exactly the
    blocks on every walk from the entry to a reachable block that no link leaves, or the entry when
    there is no such block, without those that lie on a cycle. Without blocks there are none. -/
theorem uniform_ofLinks_iff_unavoidable (n : Nat) (links : List (Nat × Nat)) :
    ((∃ k ≤ FlowGraph.dominatorCount (FlowGraph.ofLinks n links).initialDominators,
        ((ofLinks n links).graph.sweep (ofLinks n links).reach)^[k]
            (ofLinks n links).graph.initialDominators =
          (ofLinks n links).graph.dominators (ofLinks n links).reach) ∧
      (ofLinks n links).graph.sweep (ofLinks n links).reach
          ((ofLinks n links).graph.dominators (ofLinks n links).reach) =
        (ofLinks n links).graph.dominators (ofLinks n links).reach) ∧
    (ofLinks n links).uniform.Pairwise (· < ·) ∧
    ∀ b, b ∈ (ofLinks n links).uniform ↔
      (0 < n ∨ links ≠ []) ∧ Unavoidable (fun x y => (x, y) ∈ links) b ∧
        ¬ Relation.TransGen (fun x y => (x, y) ∈ links) b b := by
  refine ⟨FlowGraph.settle_spec _ _, pairwise_uniform_ofGraph _, ?_⟩
  intro b
  rw [← FlowGraph.size_ofLinks_pos, ← FlowGraph.link_ofLinks_eq n, ← and_assoc]
  exact mem_uniform_ofGraph (FlowGraph.closed_ofLinks n links) b

end ControlFlow

end Lockstep
