import Lockstep.Flow.Control
import Mathlib.Logic.Relation
import Mathlib.Data.List.Basic

set_option autoImplicit false

/-! # Walks in flow graphs

A walk is the list of the blocks that a run passes, one link after another. The walk that fills the
reachability table marks a block exactly when there is a walk of one or more links to it
(`reachTable_holds`), and the graph of given links has these links and no others
(`link_ofLinks`). -/

namespace Lockstep

/-- A walk along links: the blocks that it passes in order, its start and its end among them, and
    the block where it ends. -/
inductive Walk (link : Nat → Nat → Prop) (start : Nat) : List Nat → Nat → Prop
  | nil : Walk link start [start] start
  | snoc {p : List Nat} {a b : Nat} (hp : Walk link start p a) (hab : link a b) :
      Walk link start (p ++ [b]) b

namespace Walk

variable {link : Nat → Nat → Prop} {s e : Nat} {p : List Nat}

theorem start_mem (h : Walk link s p e) : s ∈ p := by
  induction h with
  | nil => simp
  | snoc _ _ ih => simp [ih]

theorem end_mem (h : Walk link s p e) : e ∈ p := by
  cases h <;> simp

theorem reachable (h : Walk link s p e) : Relation.ReflTransGen link s e := by
  induction h with
  | nil => exact .refl
  | snoc _ hab ih => exact ih.tail hab

/-- What a walk passes lies between its start and its end. -/
theorem between (h : Walk link s p e) {b : Nat} (hb : b ∈ p) :
    Relation.ReflTransGen link s b ∧ Relation.ReflTransGen link b e := by
  induction h with
  | nil =>
      obtain rfl := List.mem_singleton.1 hb
      exact ⟨.refl, .refl⟩
  | snoc hp hab ih =>
      rcases List.mem_append.1 hb with hb | hb
      · exact ⟨(ih hb).1, (ih hb).2.tail hab⟩
      · obtain rfl := List.mem_singleton.1 hb
        exact ⟨hp.reachable.tail hab, .refl⟩

/-- A walk that goes on where another one ends. -/
theorem append {q : List Nat} {f : Nat} (h : Walk link s p e) (h' : Walk link e q f) :
    Walk link s (p ++ q.tail) f := by
  induction h' with
  | nil => simpa using h
  | snoc hq hab ih =>
      rw [List.tail_append_of_ne_nil (List.ne_nil_of_mem hq.start_mem), ← List.append_assoc]
      exact ih.snoc hab

theorem mono {link' : Nat → Nat → Prop} (hl : ∀ a b, link a b → link' a b) (h : Walk link s p e) :
    Walk link' s p e := by
  induction h with
  | nil => exact .nil
  | snoc _ hab ih => exact ih.snoc (hl _ _ hab)

end Walk

/-- There is a walk to everything that can be reached. -/
theorem exists_walk {link : Nat → Nat → Prop} {s e : Nat} (h : Relation.ReflTransGen link s e) :
    ∃ p, Walk link s p e := by
  induction h with
  | refl => exact ⟨[s], .nil⟩
  | tail _ hab ih =>
      obtain ⟨p, hp⟩ := ih
      exact ⟨p ++ _, hp.snoc hab⟩

/-- A path of one or more links is a walk that passes more than one block. -/
theorem transGen_iff_exists_walk {link : Nat → Nat → Prop} {s e : Nat} :
    Relation.TransGen link s e ↔ ∃ p, Walk link s p e ∧ 1 < p.length := by
  rw [Relation.TransGen.tail'_iff]
  constructor
  · rintro ⟨b, hsb, hbe⟩
    obtain ⟨p, hp⟩ := exists_walk hsb
    refine ⟨p ++ [e], hp.snoc hbe, ?_⟩
    have hpos : 0 < p.length := List.length_pos_of_mem hp.start_mem
    rw [List.length_append, List.length_singleton]
    omega
  · rintro ⟨p, hp, hlen⟩
    cases hp with
    | nil => simp at hlen
    | snoc hp hab => exact ⟨_, hp.reachable, hab⟩

/-- Of two walks that meet in a block, a block on both sides lies on a cycle. -/
theorem cycle_of_before_after {link : Nat → Nat → Prop} {w b : Nat}
    (hbefore : Relation.ReflTransGen link w b) (hafter : Relation.TransGen link b w) :
    Relation.TransGen link w w :=
  Relation.TransGen.trans_right hbefore hafter

namespace FlowGraph

/-! ## The graph of given links -/

/-- Every link ends at a block of the graph. -/
def Closed (g : FlowGraph) : Prop := ∀ a b, g.link a b → b < g.size

theorem link_iff (g : FlowGraph) (a b : Nat) : g.link a b ↔ b ∈ g.successors a := by
  simp [link]

theorem lt_size_of_link {g : FlowGraph} {a b : Nat} (h : g.link a b) : a < g.size := by
  by_contra hlt
  have : g.succs[a]? = none := Array.getElem?_eq_none (by simpa [size] using hlt)
  simp [link, successors, this] at h

theorem isExit_iff (g : FlowGraph) (a : Nat) : g.isExit a ↔ ∀ b, ¬ g.link a b := by
  simp only [isExit, link, List.isEmpty_iff, List.contains_iff_mem]
  exact List.eq_nil_iff_forall_not_mem

@[simp] theorem size_addLink (succs : Array (List Nat)) (l : Nat × Nat) :
    (addLink succs l).size = succs.size := by
  simp [addLink]

theorem mem_addLink (succs : Array (List Nat)) (l : Nat × Nat) (a b : Nat) :
    b ∈ (addLink succs l)[a]?.getD [] ↔
      b ∈ succs[a]?.getD [] ∨ (l = (a, b) ∧ a < succs.size) := by
  obtain ⟨c, d⟩ := l
  unfold addLink
  rw [Array.getElem?_modify]
  by_cases hca : c = a
  · subst hca
    by_cases hlt : c < succs.size
    · by_cases hd : succs[c].contains d
      · have hmem : d ∈ succs[c] := by simpa using hd
        simp only [↓reduceIte, hlt, Array.getElem?_eq_getElem, Option.map_some, Option.getD_some,
          hd, Prod.mk.injEq, true_and, and_true]
        exact ⟨Or.inl, fun h => h.elim id fun hdb => hdb ▸ hmem⟩
      · have hmem : d ∉ succs[c] := by simpa using hd
        simp [hlt, hmem, eq_comm]
    · simp [hlt]
  · simp [hca]

theorem mem_foldl_addLink (links : List (Nat × Nat)) (succs : Array (List Nat)) (a b : Nat) :
    b ∈ (links.foldl addLink succs)[a]?.getD [] ↔
      b ∈ succs[a]?.getD [] ∨ ((a, b) ∈ links ∧ a < succs.size) := by
  induction links generalizing succs with
  | nil => simp
  | cons l rest ih =>
      rw [List.foldl_cons, ih, mem_addLink, size_addLink, List.mem_cons]
      constructor
      · rintro ((h | ⟨rfl, hlt⟩) | ⟨h, hlt⟩)
        · exact .inl h
        · exact .inr ⟨.inl rfl, hlt⟩
        · exact .inr ⟨.inr h, hlt⟩
      · rintro (h | ⟨rfl | h, hlt⟩)
        · exact .inl (.inl h)
        · exact .inl (.inr ⟨rfl, hlt⟩)
        · exact .inr ⟨h, hlt⟩

theorem size_foldl_addLink (links : List (Nat × Nat)) (succs : Array (List Nat)) :
    (links.foldl addLink succs).size = succs.size := by
  induction links generalizing succs with
  | nil => rfl
  | cons l rest ih => rw [List.foldl_cons, ih, size_addLink]

/-- The number of blocks covers what is asked for and both ends of every link. -/
theorem le_blockCount (links : List (Nat × Nat)) (n : Nat) :
    n ≤ links.foldl (fun n l => max n (max l.1 l.2 + 1)) n ∧
      ∀ l ∈ links, max l.1 l.2 < links.foldl (fun n l => max n (max l.1 l.2 + 1)) n := by
  induction links generalizing n with
  | nil => simp
  | cons l rest ih =>
      obtain ⟨hn, hrest⟩ := ih (max n (max l.1 l.2 + 1))
      rw [List.foldl_cons]
      refine ⟨by omega, ?_⟩
      intro l' hl'
      rcases List.mem_cons.1 hl' with rfl | hl'
      · omega
      · exact hrest l' hl'

theorem size_ofLinks (n : Nat) (links : List (Nat × Nat)) :
    (ofLinks n links).size = links.foldl (fun n l => max n (max l.1 l.2 + 1)) n := by
  simp [ofLinks, size, size_foldl_addLink]

/-- The graph of given links has these links and no others. -/
theorem link_ofLinks (n : Nat) (links : List (Nat × Nat)) (a b : Nat) :
    (ofLinks n links).link a b ↔ (a, b) ∈ links := by
  rw [link_iff]
  unfold successors ofLinks
  rw [mem_foldl_addLink]
  constructor
  · rintro (h | ⟨h, -⟩)
    · rw [Array.getElem?_replicate] at h
      split at h <;> simp at h
    · exact h
  · intro h
    have := (le_blockCount links n).2 _ h
    exact .inr ⟨h, by simp only [Array.size_replicate]; omega⟩

/-- So its paths are those of the links. -/
theorem link_ofLinks_eq (n : Nat) (links : List (Nat × Nat)) :
    (fun a b => ((ofLinks n links).link a b : Prop)) = fun a b => (a, b) ∈ links := by
  funext a b
  exact propext (link_ofLinks n links a b)

theorem closed_ofLinks (n : Nat) (links : List (Nat × Nat)) : (ofLinks n links).Closed := by
  intro a b h
  have := (le_blockCount links n).2 _ ((link_ofLinks n links a b).1 h)
  rw [size_ofLinks]
  omega

/-- There are blocks when some are asked for or when there is a link. -/
theorem size_ofLinks_pos (n : Nat) (links : List (Nat × Nat)) :
    0 < (ofLinks n links).size ↔ 0 < n ∨ links ≠ [] := by
  rw [size_ofLinks]
  constructor
  · intro h
    by_contra hno
    push Not at hno
    obtain ⟨hn, rfl⟩ := hno
    simp only [List.foldl_nil] at h
    omega
  · rintro (h | h)
    · have := (le_blockCount links n).1
      omega
    · obtain ⟨l, hl⟩ := List.exists_mem_of_ne_nil _ h
      have := (le_blockCount links n).2 l hl
      omega

/-! ## The reachability table -/

/-- The blocks that are marked lead only to blocks that are marked or that wait in the queue. -/
def MarkInv (g : FlowGraph) (queue : List Nat) (seen : Array Bool) : Prop :=
  seen.size = g.size ∧ (∀ q ∈ queue, q < g.size) ∧
    ∀ a b, seen[a]? = some true → g.link a b → seen[b]? = some true ∨ b ∈ queue

theorem MarkInv.expand {g : FlowGraph} (hg : g.Closed) {b : Nat} {rest : List Nat}
    {seen : Array Bool} (h : g.MarkInv (b :: rest) seen) :
    g.MarkInv (rest ++ g.successors b) (seen.setIfInBounds b true) := by
  obtain ⟨hsize, hqueue, hclosed⟩ := h
  have hb : b < seen.size := hsize ▸ hqueue b (List.mem_cons_self ..)
  refine ⟨by simpa using hsize, ?_, ?_⟩
  · intro q hq
    rcases List.mem_append.1 hq with hq | hq
    · exact hqueue q (List.mem_cons_of_mem _ hq)
    · exact hg b q ((g.link_iff b q).2 hq)
  -- the block is marked and its links are queued; what was marked before keeps its links
  · intro x y hx hxy
    rw [Array.getElem?_setIfInBounds] at hx ⊢
    by_cases hyb : b = y
    · subst hyb; simp [hb]
    · rw [if_neg hyb]
      by_cases hxb : b = x
      · subst hxb
        exact .inr (List.mem_append_right _ ((g.link_iff b y).1 hxy))
      · rw [if_neg hxb] at hx
        rcases hclosed x y hx hxy with h | h
        · exact .inl h
        · rcases List.mem_cons.1 h with rfl | h
          · exact absurd rfl hyb
          · exact .inr (List.mem_append_left _ h)

theorem MarkInv.skip {g : FlowGraph} {b : Nat} {rest : List Nat} {seen : Array Bool}
    (h : g.MarkInv (b :: rest) seen) (hb : seen[b]? ≠ some false) : g.MarkInv rest seen := by
  obtain ⟨hsize, hqueue, hclosed⟩ := h
  refine ⟨hsize, fun q hq => hqueue q (List.mem_cons_of_mem _ hq), ?_⟩
  intro x y hx hxy
  rcases hclosed x y hx hxy with h | h
  · exact .inl h
  · rcases List.mem_cons.1 h with rfl | h
    · have hlt : y < seen.size := hsize ▸ hqueue y (List.mem_cons_self ..)
      rw [Array.getElem?_eq_getElem hlt] at hb ⊢
      exact .inl (by simpa using hb)
    · exact .inr h

/-- Marking marks the queue, keeps every mark, and ends with a set that no link leaves. -/
theorem mark_complete {g : FlowGraph} (hg : g.Closed) (queue : List Nat) (seen : Array Bool)
    (h : g.MarkInv queue seen) :
    (∀ b, seen[b]? = some true ∨ b ∈ queue → (g.mark queue seen)[b]? = some true) ∧
      g.MarkInv [] (g.mark queue seen) := by
  -- on the calls of `mark`: one that marks a block and one that skips it both keep the invariant
  fun_induction mark g queue seen with
  | case1 seen => exact ⟨fun b hb => hb.resolve_right (by simp), h⟩
  | case2 seen b rest hb ih =>
      obtain ⟨hmarks, hinv⟩ := ih (h.expand hg)
      refine ⟨?_, hinv⟩
      intro x hx
      apply hmarks
      have hlt : b < seen.size := (Array.getElem?_eq_some_iff.1 hb).1
      rw [Array.getElem?_setIfInBounds]
      by_cases hbx : b = x
      · subst hbx; simp [hlt]
      · rw [if_neg hbx]
        rcases hx with hx | hx
        · exact .inl hx
        · rcases List.mem_cons.1 hx with rfl | hx
          · exact absurd rfl hbx
          · exact .inr (List.mem_append_left _ hx)
  | case3 seen b rest hb ih =>
      obtain ⟨hmarks, hinv⟩ := ih (h.skip hb)
      refine ⟨?_, hinv⟩
      intro x hx
      apply hmarks
      rcases hx with hx | hx
      · exact .inl hx
      · rcases List.mem_cons.1 hx with rfl | hx
        · have hlt : x < seen.size := h.1 ▸ h.2.1 x (List.mem_cons_self ..)
          rw [Array.getElem?_eq_getElem hlt] at hb ⊢
          exact .inl (by simpa using hb)
        · exact .inr hx

/-- What gets marked can be reached from the queue. -/
theorem mark_sound (g : FlowGraph) (queue : List Nat) (seen : Array Bool) (b : Nat)
    (h : (g.mark queue seen)[b]? = some true) :
    seen[b]? = some true ∨
      ∃ q ∈ queue, Relation.ReflTransGen (fun x y => g.link x y) q b := by
  fun_induction mark g queue seen with
  | case1 seen => exact .inl h
  | case2 seen a rest ha ih =>
      rcases ih h with h | ⟨q, hq, hr⟩
      · rw [Array.getElem?_setIfInBounds] at h
        by_cases hab : a = b
        · exact .inr ⟨a, List.mem_cons_self .., hab ▸ .refl⟩
        · rw [if_neg hab] at h
          exact .inl h
      · rcases List.mem_append.1 hq with hq | hq
        · exact .inr ⟨q, List.mem_cons_of_mem _ hq, hr⟩
        · exact .inr ⟨a, List.mem_cons_self .., .head ((g.link_iff a q).2 hq) hr⟩
  | case3 seen a rest ha ih =>
      rcases ih h with h | ⟨q, hq, hr⟩
      · exact .inl h
      · exact .inr ⟨q, List.mem_cons_of_mem _ hq, hr⟩

theorem reachFrom_iff {g : FlowGraph} (hg : g.Closed) (a b : Nat) :
    (g.reachFrom a)[b]? = some true ↔ Relation.TransGen (fun x y => g.link x y) a b := by
  have hinit : g.MarkInv (g.successors a) (Array.replicate g.size false) := by
    refine ⟨by simp, fun q hq => hg a q ((g.link_iff a q).2 hq), ?_⟩
    intro x y hx _
    rw [Array.getElem?_replicate] at hx
    split at hx <;> simp at hx
  obtain ⟨hmarks, -, -, hclosed⟩ := mark_complete hg _ _ hinit
  constructor
  · intro h
    rcases mark_sound g _ _ b h with h | ⟨q, hq, hr⟩
    · rw [Array.getElem?_replicate] at h
      split at h <;> simp at h
    · exact Relation.TransGen.head' ((g.link_iff a q).2 hq) hr
  · intro h
    -- no link leaves the marked blocks, so the path does not
    induction h with
    | single hab => exact hmarks _ (.inr ((g.link_iff _ _).1 hab))
    | tail _ hbc ih => exact (hclosed _ _ ih hbc).resolve_right (by simp)

/-- The table holds exactly of the blocks that are one or more links apart. -/
theorem reachTable_holds {g : FlowGraph} (hg : g.Closed) (a b : Nat) :
    g.reachTable.holds a b ↔ Relation.TransGen (fun x y => g.link x y) a b := by
  rw [← reachFrom_iff hg]
  unfold reachTable Relation.holds
  by_cases ha : a < g.size
  · simp only [Array.getElem?_ofFn, ha, ↓reduceDIte, Option.bind_some]
    cases (g.reachFrom a)[b]? <;> simp
  · simp only [Array.getElem?_ofFn, ha, ↓reduceDIte, Option.bind_none, Option.getD_none,
      Bool.false_eq_true, false_iff]
    intro h
    obtain ⟨c, hac, -⟩ := Relation.TransGen.head'_iff.1 ((reachFrom_iff hg a b).1 h)
    exact ha (lt_size_of_link hac)

theorem reachTable_holdsOrSame {g : FlowGraph} (hg : g.Closed) (a b : Nat) :
    g.reachTable.holdsOrSame a b ↔ Relation.ReflTransGen (fun x y => g.link x y) a b := by
  rw [Relation.reflTransGen_iff_eq_or_transGen, ← reachTable_holds hg]
  simp only [Relation.holdsOrSame, Bool.or_eq_true, beq_iff_eq]
  exact or_congr_left eq_comm

end FlowGraph

end Lockstep
