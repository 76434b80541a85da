import Lockstep.Proofs.Flow.Search
import Lockstep.Proofs.Flow.Uniform

set_option autoImplicit false

/-! # The next uniform block

The search for the next uniform block stops at the first level that has one (`firstUniform?_spec`), and
the levels follow the distances, so what it finds is nearest (`ControlFlow.nearest_nextUniform`). In a
part of the graph that can be reached from the entry the uniform blocks come one after another, and the
nearest one is the first that every walk meets: the block where lanes that have parted come together
again (`ControlFlow.nextUniform_reconverges`). -/

namespace Lockstep

/-! ## The order of uniform blocks on walks -/

section

variable {link : Nat → Nat → Prop} {b n u v : Nat} {p : List Nat}

/-- A uniform block that links lead to can be left for an exit. -/
theorem Uniform.exists_exit (hb : Relation.ReflTransGen link 0 b) (hu : Uniform link u)
    (hbu : Relation.TransGen link b u) : ∃ e, Relation.ReflTransGen link u e ∧ ∀ t, ¬ link e t := by
  rcases hu.1.exists_exit with rfl | h
  · exact absurd (Relation.TransGen.trans_right hb hbu) hu.2
  · exact h

/-- Every walk to an exit passes the uniform blocks that links lead to. -/
theorem Uniform.mem_walk (hb : Relation.ReflTransGen link 0 b) (hu : Uniform link u)
    (hbu : Relation.TransGen link b u) {e : Nat} (hp : Walk link b p e) (he : ∀ t, ¬ link e t) :
    u ∈ p.tail := by
  obtain ⟨q, hq⟩ := exists_walk hb
  rcases List.mem_append.1 (hu.1.mem_walk (hq.append hp) he) with h | h
  · exact absurd (cycle_of_before_after (hq.between h).2 hbu) hu.2
  · exact h

/-- Every walk to a uniform block passes the nearest one. -/
theorem Nearest.mem_walk (hb : Relation.ReflTransGen link 0 b) (h : Nearest link (Uniform link) b n u)
    (hv : Uniform link v) (hp : Walk link b p v) (hlength : 1 < p.length) : u ∈ p.tail := by
  have hbv := hp.transGen hlength
  have hbu := h.distance.transGen
  -- the walk goes on to an exit, and passes the nearest block before or after
  obtain ⟨e, hve, he⟩ := hv.exists_exit hb hbv
  obtain ⟨q, hq⟩ := exists_walk hve
  have hmem := h.holds.mem_walk hb hbu (hp.append hq) he
  rw [List.tail_append_of_ne_nil (List.ne_nil_of_mem hp.start_mem)] at hmem
  rcases List.mem_append.1 hmem with hmem | hmem
  · exact hmem
  have hvu : Relation.ReflTransGen link v u := (hq.between (List.mem_of_mem_tail hmem)).1
  rcases Relation.reflTransGen_iff_eq_or_transGen.1 hvu with rfl | hvu
  · exact hp.end_mem_tail hlength
  · -- a shortest walk to the nearest block goes on to an exit too, and passes the other one
    exfalso
    obtain ⟨w, hw, hwlength⟩ := h.distance.hops.exists_walk
    obtain ⟨e, hue, he⟩ := h.holds.exists_exit hb hbu
    obtain ⟨r, hr⟩ := exists_walk hue
    have hmem := hv.mem_walk hb hbv (hw.append hr) he
    rw [List.tail_append_of_ne_nil (List.ne_nil_of_mem hw.start_mem)] at hmem
    rcases List.mem_append.1 hmem with hmem | hmem
    · obtain ⟨k, hk, hhops, hlt⟩ := hw.hops_of_mem_tail hmem
      rcases hlt with hlt | rfl
      · obtain ⟨m, hm, hdistance⟩ := exists_distance hk hhops
        have := h.least v m hv hdistance
        omega
      · exact hv.2 hvu
    · have huv := (hr.between (List.mem_of_mem_tail hmem)).1
      exact hv.2 (Relation.TransGen.trans_left hvu huv)

end

namespace ControlFlow

variable {cf : ControlFlow} {f : Front} {level : List Nat} {b u : Nat}

/-! ## The search -/

theorem lowestUniform?_eq_some (h : cf.lowestUniform? level = some u) :
    u ∈ level ∧ cf.isUniform u ∧ ∀ v ∈ level, cf.isUniform v → u ≤ v := by
  obtain ⟨hmem, hle⟩ := List.min?_eq_some_iff.1 h
  obtain ⟨hlevel, huniform⟩ := List.mem_filter.1 hmem
  exact ⟨hlevel, huniform, fun v hv hvu => hle v (List.mem_filter.2 ⟨hv, hvu⟩)⟩

theorem lowestUniform?_eq_none (h : cf.lowestUniform? level = none) : ∀ v ∈ level, ¬ cf.isUniform v := by
  intro v hv hvu
  exact List.not_mem_nil (List.min?_eq_none_iff.1 h ▸ List.mem_filter.2 ⟨hv, hvu⟩)

/-- A search is over at a level without blocks, and at one with a uniform block. -/
def Stops (cf : ControlFlow) (f : Front) : Prop := f.level = [] ∨ ∃ u ∈ f.level, cf.isUniform u

/-- The search stops, after at most as many passes as there is to do, at the first level where it is
    over, and gives the lowest uniform block of that level. -/
theorem firstUniform?_spec (cf : ControlFlow) (f : Front) :
    ∃ k ≤ f.todo, (∀ j < k, ¬ cf.Stops (cf.graph.pass^[j] f)) ∧ cf.Stops (cf.graph.pass^[k] f) ∧
      cf.firstUniform? f = cf.lowestUniform? (cf.graph.pass^[k] f).level := by
  fun_induction firstUniform? cf f with
  | case1 f hlevel =>
      refine ⟨0, Nat.zero_le _, fun j hj => absurd hj (Nat.not_lt_zero j), .inl hlevel, ?_⟩
      simp [lowestUniform?, hlevel]
  | case2 f _ u hu =>
      obtain ⟨hmem, huniform, -⟩ := lowestUniform?_eq_some hu
      exact ⟨0, Nat.zero_le _, fun j hj => absurd hj (Nat.not_lt_zero j), .inr ⟨u, hmem, huniform⟩,
        hu.symm⟩
  | case3 f hlevel hnone ih =>
      obtain ⟨k, hk, hbefore, hstops, heq⟩ := ih
      have htodo := cf.graph.todo_pass hlevel
      refine ⟨k + 1, by omega, fun j hj => ?_, hstops, heq⟩
      cases j with
      | zero =>
          rintro (h | ⟨u, hu, huniform⟩)
          · exact hlevel h
          · exact lowestUniform?_eq_none hnone u hu huniform
      | succ j => exact hbefore j (Nat.lt_of_succ_lt_succ hj)

/-- A uniform block at some distance is not found before the level of that distance, and it is on it. -/
theorem not_stops_before (hg : cf.graph.Closed) {k m : Nat}
    (hbefore : ∀ j < k, ¬ cf.Stops (cf.graph.pass^[j] (cf.graph.frontOf b)))
    (hu : cf.isUniform u) (h : Distance (fun x y => cf.graph.link x y) b m u) : k < m := by
  by_contra hle
  have hpos := h.pos
  have hat := Front.At.iterate hg b (m - 1)
  rw [Nat.sub_add_cancel hpos] at hat
  exact hbefore (m - 1) (by omega) (.inr ⟨u, hat.mem u h, hu⟩)

/-- When uniform blocks can be reached, the next one is the lowest of those at the least distance. -/
theorem nearest_nextUniform (hg : cf.graph.Closed) (hu : cf.isUniform u)
    (hbu : Relation.TransGen (fun x y => cf.graph.link x y) b u) :
    ∃ n, Nearest (fun x y => cf.graph.link x y) (fun v => cf.isUniform v) b n (cf.nextUniform b) := by
  obtain ⟨k, -, hbefore, hstops, hfirst⟩ := cf.firstUniform?_spec (cf.graph.frontOf b)
  have hat := Front.At.iterate hg b k
  unfold nextUniform
  rw [hfirst]
  cases hlowest : cf.lowestUniform? (cf.graph.pass^[k] (cf.graph.frontOf b)).level with
  | some v =>
      obtain ⟨hmem, hv, hlowest⟩ := lowestUniform?_eq_some hlowest
      obtain ⟨m, hm, hdistance⟩ := exists_distance k.succ_pos (hat.hops v hmem)
      have hkm := not_stops_before hg hbefore hv hdistance
      obtain rfl : m = k + 1 := by omega
      refine ⟨k + 1, hdistance, hv, fun w m hw hwm => ?_⟩
      have hkw := not_stops_before hg hbefore hw hwm
      rcases Nat.eq_or_lt_of_le hkw with rfl | hlt
      · exact .inr ⟨rfl, hlowest w (hat.mem w hwm) hw⟩
      · exact .inl hlt
  | none =>
      -- the level is empty, and no block is farther away than that
      exfalso
      have hlevel : (cf.graph.pass^[k] (cf.graph.frontOf b)).level = [] :=
        hstops.resolve_right fun ⟨v, hv, huniform⟩ => lowestUniform?_eq_none hlowest v hv huniform
      obtain ⟨n, hn, hhops⟩ := exists_hops hbu
      obtain ⟨m, -, hdistance⟩ := exists_distance hn hhops
      have hkm := not_stops_before hg hbefore hu hdistance
      obtain ⟨a, ha⟩ := hdistance.exists_of_le k.succ_pos hkm
      exact List.not_mem_nil (hlevel ▸ hat.mem a ha)

/-- When no uniform block can be reached, the search gives the block that it began with. -/
theorem nextUniform_eq_self (hg : cf.graph.Closed)
    (h : ∀ u, Relation.TransGen (fun x y => cf.graph.link x y) b u → ¬ cf.isUniform u) :
    cf.nextUniform b = b := by
  obtain ⟨k, -, -, -, hfirst⟩ := cf.firstUniform?_spec (cf.graph.frontOf b)
  unfold nextUniform
  rw [hfirst]
  cases hlowest : cf.lowestUniform? (cf.graph.pass^[k] (cf.graph.frontOf b)).level with
  | some v =>
      obtain ⟨hmem, hv, -⟩ := lowestUniform?_eq_some hlowest
      exact absurd hv (h v ((Front.At.iterate hg b k).hops v hmem).transGen)
  | none => rfl

/-- The search comes to a uniform block if one can be reached. -/
theorem nextUniform_ofLinks {m : Nat} {links : List (Nat × Nat)}
    (hu : (ofLinks m links).isUniform u) (hbu : (ofLinks m links).reach.holds b u) :
    Uniform (fun x y => (x, y) ∈ links) ((ofLinks m links).nextUniform b) ∧
      Relation.TransGen (fun x y => (x, y) ∈ links) b ((ofLinks m links).nextUniform b) := by
  rw [reach_ofLinks, ← FlowGraph.link_ofLinks_eq m] at hbu
  obtain ⟨n, hnearest⟩ := nearest_nextUniform (FlowGraph.closed_ofLinks m links) hu hbu
  refine ⟨((isUniform_ofLinks m links _).1 hnearest.holds).2, ?_⟩
  rw [← FlowGraph.link_ofLinks_eq m]
  exact hnearest.distance.transGen

/-- What the search gives is the block itself, or uniform and reached from it. -/
theorem nextUniform_cases (m : Nat) (links : List (Nat × Nat)) (b : Nat) :
    (ofLinks m links).nextUniform b = b ∨
      (Uniform (fun x y => (x, y) ∈ links) ((ofLinks m links).nextUniform b) ∧
        Relation.TransGen (fun x y => (x, y) ∈ links) b ((ofLinks m links).nextUniform b)) := by
  by_cases h : ∃ u, (ofLinks m links).isUniform u ∧ (ofLinks m links).reach.holds b u
  · obtain ⟨u, hu, hbu⟩ := h
    exact .inr (nextUniform_ofLinks hu hbu)
  · refine .inl (nextUniform_eq_self (FlowGraph.closed_ofLinks m links) fun u hbu hu => h ⟨u, hu, ?_⟩)
    rw [reach_ofLinks, ← FlowGraph.link_ofLinks_eq m]
    exact hbu

/-- The search for the next uniform block stops at the first level that has a uniform block or none
    at all. When a uniform block can be reached, it gives the lowest of those at the least distance.
    From a block that can be reached from the entry, what it gives other than the block itself is
    uniform, every walk to an exit passes it, and a walk that meets any uniform block has passed it
    by then; it gives the block itself when no uniform block can be reached. -/
theorem nextUniform_reconverges (m : Nat) (links : List (Nat × Nat)) (b : Nat) :
    (∃ k ≤ (ofLinks m links).graph.size + 1,
      (∀ j < k, ¬ (ofLinks m links).Stops
        ((ofLinks m links).graph.pass^[j] ((ofLinks m links).graph.frontOf b))) ∧
      (ofLinks m links).Stops
        ((ofLinks m links).graph.pass^[k] ((ofLinks m links).graph.frontOf b)) ∧
      (ofLinks m links).nextUniform b = ((ofLinks m links).lowestUniform?
        ((ofLinks m links).graph.pass^[k] ((ofLinks m links).graph.frontOf b)).level).getD b) ∧
    (∀ v, (ofLinks m links).isUniform v → Relation.TransGen (fun x y => (x, y) ∈ links) b v →
      ∃ n, Nearest (fun x y => (x, y) ∈ links) (fun u => (ofLinks m links).isUniform u) b n
        ((ofLinks m links).nextUniform b)) ∧
    (Relation.ReflTransGen (fun x y => (x, y) ∈ links) 0 b →
      ((ofLinks m links).nextUniform b ≠ b →
        (ofLinks m links).isUniform ((ofLinks m links).nextUniform b) ∧
        (∀ p e, Walk (fun x y => (x, y) ∈ links) b p e → (∀ t, (e, t) ∉ links) →
          (ofLinks m links).nextUniform b ∈ p) ∧
        ∀ p v, Walk (fun x y => (x, y) ∈ links) b p v → 1 < p.length →
          (ofLinks m links).isUniform v → (ofLinks m links).nextUniform b ∈ p.tail) ∧
      ((ofLinks m links).nextUniform b = b →
        ∀ v, Relation.TransGen (fun x y => (x, y) ∈ links) b v → ¬ (ofLinks m links).isUniform v)) := by
  have hclosed : (ofLinks m links).graph.Closed := FlowGraph.closed_ofLinks m links
  have hlink : (fun x y => ((ofLinks m links).graph.link x y : Prop)) = fun x y => (x, y) ∈ links :=
    FlowGraph.link_ofLinks_eq m links
  have hnearest : ∀ v, (ofLinks m links).isUniform v →
      Relation.TransGen (fun x y => (x, y) ∈ links) b v →
      ∃ n, Nearest (fun x y => (x, y) ∈ links) (fun u => (ofLinks m links).isUniform u) b n
        ((ofLinks m links).nextUniform b) := by
    intro v hv hbv
    rw [← hlink] at hbv ⊢
    exact nearest_nextUniform hclosed hv hbv
  refine ⟨?_, hnearest, fun hb => ⟨fun hne => ?_, fun heq v hbv hv => ?_⟩⟩
  · obtain ⟨k, hk, hbefore, hstops, hfirst⟩ :=
      (ofLinks m links).firstUniform?_spec ((ofLinks m links).graph.frontOf b)
    exact ⟨k, hk.trans (FlowGraph.todo_frontOf _ b), hbefore, hstops, congrArg (·.getD b) hfirst⟩
  · -- the search gives another block only if it has found a uniform one
    have hfound : ∃ v, (ofLinks m links).isUniform v ∧
        Relation.TransGen (fun x y => (x, y) ∈ links) b v := by
      by_contra hnone
      refine hne (nextUniform_eq_self hclosed fun v hbv hv => hnone ⟨v, hv, ?_⟩)
      rwa [hlink] at hbv
    obtain ⟨v, hv, hbv⟩ := hfound
    obtain ⟨n, hn⟩ := hnearest v hv hbv
    have huniform : ∀ u, (ofLinks m links).isUniform u → Uniform (fun x y => (x, y) ∈ links) u :=
      fun u hu => ((isUniform_ofLinks m links u).1 hu).2
    refine ⟨hn.holds, fun p e hp he => ?_, fun p w hp hlength hw => ?_⟩
    · exact List.mem_of_mem_tail ((huniform _ hn.holds).mem_walk hb hn.distance.transGen hp he)
    · have hpos := ((isUniform_ofLinks m links _).1 hn.holds).1
      refine Nearest.mem_walk hb (n := n) ⟨hn.distance, huniform _ hn.holds, fun x k hx hdistance => ?_⟩
        (huniform w hw) hp hlength
      exact hn.least x k ((isUniform_ofLinks m links x).2 ⟨hpos, hx⟩) hdistance
  · -- it would have come back to the block, which is uniform
    obtain ⟨n, hn⟩ := hnearest v hv hbv
    rw [heq] at hn
    exact ((isUniform_ofLinks m links b).1 hn.holds).2.2 hn.distance.transGen

/-- A loop of three blocks, two of which leave it. -/
def loopWithTwoExits : List (Nat × Nat) :=
  [(0, 1), (1, 3), (0, 2), (2, 3), (3, 4), (4, 5), (4, 6), (5, 3), (5, 6)]

/-- From the last block of this loop the next uniform block is the one behind it, and no walk to an exit
    avoids that. -/
theorem loopWithTwoExits_reconverges :
    (ofLinks 0 loopWithTwoExits).nextUniform 5 = 6 ∧
      ∀ p e, Walk (fun x y => (x, y) ∈ loopWithTwoExits) 5 p e →
        (∀ t, (e, t) ∉ loopWithTwoExits) → 6 ∈ p := by
  have hnext : (ofLinks 0 loopWithTwoExits).nextUniform 5 = 6 := by decide +kernel
  have hreach : Relation.ReflTransGen (fun x y => (x, y) ∈ loopWithTwoExits) 0 5 := by
    have h : ∀ l ∈ [(0, 1), (1, 3), (3, 4), (4, 5)], l ∈ loopWithTwoExits := by decide
    exact .head (h (0, 1) (by decide)) (.head (h (1, 3) (by decide))
      (.head (h (3, 4) (by decide)) (.single (h (4, 5) (by decide)))))
  obtain ⟨-, -, hspec⟩ := nextUniform_reconverges 0 loopWithTwoExits 5
  obtain ⟨-, hexit, -⟩ := (hspec hreach).1 (by rw [hnext]; decide)
  exact ⟨hnext, fun p e hp he => hnext ▸ hexit p e hp he⟩

end ControlFlow

end Lockstep
