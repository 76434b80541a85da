import Lockstep.Proofs.Flow.Paths
import Mathlib.Data.Nat.Find
import Mathlib.Logic.Function.Iterate

set_option autoImplicit false

/-! # Distances and search by levels

The distance between two blocks is the least number of links, one or more, that lead from one to the
other. The levels of a search follow the distances: the blocks at distance `n` are on the `n`th level,
and what the search has marked by then is nearer (`Front.At`). One pass keeps this (`Front.At.pass`),
although a block may be put on a level and be marked there only afterwards. -/

namespace Lockstep

/-! ## Distances -/

/-- So many links lead from a block to another. -/
inductive Hops (link : Nat → Nat → Prop) (s : Nat) : Nat → Nat → Prop
  | zero : Hops link s 0 s
  | succ {n a b : Nat} (h : Hops link s n a) (hab : link a b) : Hops link s (n + 1) b

/-- The least number of links, one or more, that lead from a block to another. -/
structure Distance (link : Nat → Nat → Prop) (s n b : Nat) : Prop where
  pos : 0 < n
  hops : Hops link s n b
  le : ∀ m, 0 < m → Hops link s m b → n ≤ m

section

variable {link : Nat → Nat → Prop} {s b m n : Nat}

theorem Hops.transGen (h : Hops link s (n + 1) b) : Relation.TransGen link s b := by
  generalize hk : n + 1 = k at h
  induction h generalizing n with
  | zero => omega
  | @succ k a b h hab ih =>
      cases k with
      | zero =>
          cases h
          exact .single hab
      | succ k => exact (ih rfl).tail hab

theorem exists_hops (h : Relation.TransGen link s b) : ∃ n, 0 < n ∧ Hops link s n b := by
  induction h with
  | single hab => exact ⟨1, Nat.one_pos, Hops.zero.succ hab⟩
  | tail _ hab ih =>
      obtain ⟨n, -, hn⟩ := ih
      exact ⟨n + 1, n.succ_pos, hn.succ hab⟩

theorem Walk.hops {p : List Nat} (h : Walk link s p b) : Hops link s (p.length - 1) b := by
  induction h with
  | nil => exact .zero
  | @snoc p a b hp hab ih =>
      have hpos : 0 < p.length := List.length_pos_of_mem hp.start_mem
      have hlength : (p ++ [b]).length - 1 = p.length - 1 + 1 := by
        rw [List.length_append, List.length_singleton]
        omega
      rw [hlength]
      exact ih.succ hab

/-- What a walk comes to after its start is fewer links away than its end, or the end itself. -/
theorem Walk.hops_of_mem_tail {p : List Nat} {e : Nat} (h : Walk link s p e) (hb : b ∈ p.tail) :
    ∃ n, 0 < n ∧ Hops link s n b ∧ (n < p.length - 1 ∨ b = e) := by
  induction h with
  | nil => cases hb
  | @snoc p a e hp hae ih =>
      have hpos : 0 < p.length := List.length_pos_of_mem hp.start_mem
      rw [List.tail_append_of_ne_nil (List.ne_nil_of_mem hp.start_mem)] at hb
      rcases List.mem_append.1 hb with hb | hb
      · obtain ⟨n, hn, hhops, hlt⟩ := ih hb
        rcases hlt with hlt | rfl
        · exact ⟨n, hn, hhops, .inl (by simp; omega)⟩
        · have hlength : 1 < p.length := by
            have := List.length_pos_of_mem hb
            rw [List.length_tail] at this
            omega
          exact ⟨p.length - 1, by omega, hp.hops, .inl (by simp; omega)⟩
      · obtain rfl := List.mem_singleton.1 hb
        exact ⟨p.length - 1 + 1, Nat.succ_pos _, hp.hops.succ hae, .inr rfl⟩

theorem Hops.exists_walk (h : Hops link s n b) : ∃ p, Walk link s p b ∧ p.length = n + 1 := by
  induction h with
  | zero => exact ⟨[s], .nil, rfl⟩
  | @succ n a b _ hab ih =>
      obtain ⟨p, hp, hlength⟩ := ih
      exact ⟨p ++ [b], hp.snoc hab, by simp [hlength]⟩

theorem Walk.transGen {p : List Nat} (h : Walk link s p b) (hlength : 1 < p.length) :
    Relation.TransGen link s b := by
  obtain ⟨n, hn⟩ : ∃ n, p.length - 1 = n + 1 := ⟨p.length - 2, by omega⟩
  exact (hn ▸ h.hops).transGen

theorem Walk.end_mem_tail {p : List Nat} (h : Walk link s p b) (hlength : 1 < p.length) :
    b ∈ p.tail := by
  cases h with
  | nil => simp at hlength
  | snoc hp _ =>
      rw [List.tail_append_of_ne_nil (List.ne_nil_of_mem hp.start_mem)]
      exact List.mem_append_right _ (List.mem_singleton.2 rfl)

theorem Distance.transGen (h : Distance link s n b) : Relation.TransGen link s b := by
  obtain ⟨m, rfl⟩ : ∃ m, n = m + 1 := Nat.exists_eq_succ_of_ne_zero (Nat.ne_of_gt h.pos)
  exact h.hops.transGen

/-- What some links lead to has a distance, which is not more. -/
theorem exists_distance (hm : 0 < m) (h : Hops link s m b) : ∃ n ≤ m, Distance link s n b := by
  classical
  have hex : ∃ n, 0 < n ∧ Hops link s n b := ⟨m, hm, h⟩
  obtain ⟨hpos, hhops⟩ := Nat.find_spec hex
  exact ⟨Nat.find hex, Nat.find_min' hex ⟨hm, h⟩, hpos, hhops,
    fun k hk hkb => Nat.find_min' hex ⟨hk, hkb⟩⟩

/-- The last link of a shortest way comes from a block that is one link nearer. -/
theorem Distance.pred (hn : 0 < n) (h : Distance link s (n + 1) b) :
    ∃ a, Distance link s n a ∧ link a b := by
  cases h.hops with
  | @succ _ a _ hhops hab =>
      refine ⟨a, ⟨hn, hhops, fun m hm hma => ?_⟩, hab⟩
      have := h.le (m + 1) m.succ_pos (hma.succ hab)
      omega

/-- Where there is a block at some distance, there is one at each smaller distance. -/
theorem Distance.exists_of_le {k : Nat} (h : Distance link s n b) (hk : 0 < k) (hkn : k ≤ n) :
    ∃ a, Distance link s k a := by
  induction n generalizing b with
  | zero => omega
  | succ n ih =>
      rcases Nat.eq_or_lt_of_le hkn with rfl | hlt
      · exact ⟨b, h⟩
      · obtain ⟨a, ha, -⟩ := h.pred (by omega)
        exact ih ha (by omega)

end

/-- Of the blocks with a property that links lead to, the lowest of those at the least distance. -/
structure Nearest (link : Nat → Nat → Prop) (P : Nat → Prop) (s n u : Nat) : Prop where
  distance : Distance link s n u
  holds : P u
  least : ∀ v m, P v → Distance link s m v → n < m ∨ (n = m ∧ u ≤ v)

/-! ## What a pass does -/

namespace FlowGraph

variable {g : FlowGraph} {f : Front} {s n : Nat}

theorem mem_foldl_push (seen : Array Bool) (bs level : List Nat) (b : Nat) :
    b ∈ bs.foldl (Front.push seen) level ↔ b ∈ level ∨ (b ∈ bs ∧ seen[b]? = some false) := by
  have hpush : ∀ level a, b ∈ Front.push seen level a ↔
      b ∈ level ∨ (b = a ∧ seen[b]? = some false) := by
    intro level a
    unfold Front.push
    grind
  induction bs generalizing level with
  | nil => simp
  | cons a bs ih =>
      rw [List.foldl_cons, List.mem_cons]
      refine (ih _).trans ?_
      rw [hpush]
      grind

theorem seen_expand (g : FlowGraph) (f : Front) (a b : Nat) :
    (g.expand f a).seen[b]? =
      if b = a ∧ f.seen[a]? = some false then some true else f.seen[b]? := by
  unfold expand
  split
  · next ha =>
      obtain ⟨hlt, -⟩ := Array.getElem?_eq_some_iff.1 ha
      rw [Array.getElem?_setIfInBounds]
      grind
  · next ha => simp [ha]

theorem mem_level_expand (g : FlowGraph) (f : Front) (a b : Nat) :
    b ∈ (g.expand f a).level ↔
      b ∈ f.level ∨ (f.seen[a]? = some false ∧ g.link a b ∧ (g.expand f a).seen[b]? = some false) := by
  unfold expand
  split
  · next ha =>
      rw [mem_foldl_push, ← link_iff]
      simp [ha]
  · next ha => simp [ha]

/-- A pass marks the blocks of the level. -/
theorem seen_foldl_expand (g : FlowGraph) (bs : List Nat) (f : Front) (b : Nat) :
    (bs.foldl g.expand f).seen[b]? =
      if b ∈ bs ∧ f.seen[b]? = some false then some true else f.seen[b]? := by
  induction bs generalizing f with
  | nil => simp
  | cons a bs ih =>
      rw [List.foldl_cons, ih, seen_expand]
      grind

theorem seen_pass (g : FlowGraph) (f : Front) (b : Nat) :
    (g.pass f).seen[b]? = if b ∈ f.level ∧ f.seen[b]? = some false then some true else f.seen[b]? :=
  seen_foldl_expand g f.level { f with level := [] } b

theorem size_seen_expand (g : FlowGraph) (f : Front) (a : Nat) :
    (g.expand f a).seen.size = f.seen.size := by
  unfold expand
  split
  · exact Array.size_setIfInBounds
  · rfl

/-- What is put on a level comes from a link. -/
theorem exists_link_of_mem_foldl {bs : List Nat} {b : Nat}
    (hb : b ∈ (bs.foldl g.expand f).level) : b ∈ f.level ∨ ∃ a ∈ bs, g.link a b := by
  induction bs generalizing f with
  | nil => exact .inl hb
  | cons c bs ih =>
      rcases ih hb with hb | ⟨a, ha, hab⟩
      · rcases (mem_level_expand ..).1 hb with hb | ⟨-, hcb, -⟩
        · exact .inl hb
        · exact .inr ⟨c, List.mem_cons_self .., hcb⟩
      · exact .inr ⟨a, List.mem_cons_of_mem _ ha, hab⟩

theorem mem_level_foldl {bs : List Nat} {b : Nat} (hb : b ∈ f.level) :
    b ∈ (bs.foldl g.expand f).level := by
  induction bs generalizing f with
  | nil => exact hb
  | cons c bs ih => exact ih ((mem_level_expand ..).2 (.inl hb))

/-- What the blocks without a mark lead to is put on the level, unless it is marked in the end. -/
theorem mem_level_foldl_of_link (hg : g.Closed) (hsize : f.seen.size = g.size) {bs : List Nat}
    {a b : Nat} (ha : a ∈ bs) (hmark : f.seen[a]? = some false) (hab : g.link a b)
    (hb : (bs.foldl g.expand f).seen[b]? ≠ some true) : b ∈ (bs.foldl g.expand f).level := by
  induction bs generalizing f with
  | nil => cases ha
  | cons c bs ih =>
      rw [List.foldl_cons] at hb ⊢
      have hsize' : (g.expand f c).seen.size = g.size := (size_seen_expand g f c).trans hsize
      by_cases hac : a = c
      · subst hac
        refine mem_level_foldl ((mem_level_expand ..).2 (.inr ⟨hmark, hab, ?_⟩))
        rw [seen_foldl_expand] at hb
        have hlt : b < (g.expand f a).seen.size := hsize' ▸ hg a b hab
        rw [Array.getElem?_eq_getElem hlt] at hb ⊢
        cases hval : (g.expand f a).seen[b] with
        | false => rfl
        | true => simp [hval] at hb
      · refine ih hsize' (List.mem_of_ne_of_mem hac ha) ?_ hb
        rw [seen_expand, if_neg fun h => hac h.1]
        exact hmark

theorem size_seen_pass (g : FlowGraph) (f : Front) : (g.pass f).seen.size = f.seen.size := by
  unfold pass
  generalize f.level = bs
  suffices h : ∀ f : Front, (bs.foldl g.expand f).seen.size = f.seen.size from h _
  induction bs with
  | nil => exact fun _ => rfl
  | cons b bs ih => exact fun f => (ih _).trans (size_seen_expand g f b)

end FlowGraph

/-! ## The levels -/

/-- The search from a block has come to the level of the blocks that are `n` links away. -/
structure Front.At (g : FlowGraph) (s n : Nat) (f : Front) : Prop where
  size : f.seen.size = g.size
  hops : ∀ b ∈ f.level, Hops (fun a b => g.link a b) s n b
  mem : ∀ b, Distance (fun a b => g.link a b) s n b → b ∈ f.level
  nearer : ∀ b, f.seen[b]? = some true → ∃ m < n, Distance (fun a b => g.link a b) s m b

namespace Front.At

variable {g : FlowGraph} {f : Front} {s n : Nat}

theorem frontOf (g : FlowGraph) (s : Nat) : Front.At g s 1 (g.frontOf s) := by
  refine ⟨Array.size_replicate, fun b hb => ?_, fun b hb => ?_, fun b hb => ?_⟩
  · exact Hops.zero.succ ((g.link_iff s b).2 hb)
  · cases hb.hops with
    | succ h hab =>
        cases h
        exact (g.link_iff s b).1 hab
  · unfold FlowGraph.frontOf at hb
    grind

/-- A pass comes to the next level. -/
theorem pass (hg : g.Closed) (hn : 0 < n) (h : f.At g s n) : (g.pass f).At g s (n + 1) := by
  have hsize : (g.pass f).seen.size = g.size := (g.size_seen_pass f).trans h.size
  have hnearer : ∀ b, (g.pass f).seen[b]? = some true →
      ∃ m < n + 1, Distance (fun a b => g.link a b) s m b := by
    intro b hb
    rw [FlowGraph.seen_pass] at hb
    split at hb
    · next hmem =>
        obtain ⟨m, hm, hdistance⟩ := exists_distance hn (h.hops b hmem.1)
        exact ⟨m, by omega, hdistance⟩
    · obtain ⟨m, hm, hdistance⟩ := h.nearer b hb
      exact ⟨m, by omega, hdistance⟩
  refine ⟨hsize, fun b hb => ?_, fun b hb => ?_, hnearer⟩
  · obtain ⟨a, ha, hab⟩ := (FlowGraph.exists_link_of_mem_foldl hb).resolve_left List.not_mem_nil
    exact (h.hops a ha).succ hab
  · obtain ⟨a, ha, hab⟩ := hb.pred hn
    refine FlowGraph.mem_level_foldl_of_link (f := { f with level := [] }) hg h.size (h.mem a ha) ?_
      hab fun hseen => ?_
    -- the search has not gone on from a block that is as far away as the level
    · have hlt : a < f.seen.size := h.size ▸ FlowGraph.lt_size_of_link hab
      have hmark : f.seen[a]? ≠ some true := by
        intro hseen
        obtain ⟨m, hm, hdistance⟩ := h.nearer a hseen
        have := ha.le m hdistance.pos hdistance.hops
        omega
      rw [Array.getElem?_eq_getElem hlt] at hmark ⊢
      simpa using hmark
    · obtain ⟨m, hm, hdistance⟩ := hnearer b hseen
      have := hb.le m hdistance.pos hdistance.hops
      omega

theorem iterate (hg : g.Closed) (s k : Nat) : (g.pass^[k] (g.frontOf s)).At g s (k + 1) := by
  induction k with
  | zero => exact frontOf g s
  | succ k ih =>
      rw [Function.iterate_succ_apply']
      exact ih.pass hg k.succ_pos

end Front.At

end Lockstep
