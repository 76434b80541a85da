import Lockstep.Proofs.Session.Rounds

set_option autoImplicit false

/-! # The order of turns

A round steps lanes one after the other in the order of their numbers
(`Session.stepLanes_eq_stepInOrder`). When the turn of each lane is the same whichever others have
already had theirs, what the turns leave depends only on which lanes have had them
(`Session.exists_stepInOrder_eq`), and so every order leaves the same
(`Session.stepInOrder_of_perm`). -/

namespace Lockstep

namespace Session

variable {s : Session} {host : Host} {k : Nat} {l : Lane} {done order order' : List Nat}

/-- The turns of lanes one after the other, in a given order. -/
def stepInOrder (s : Session) (host : Host) : List Nat → Progress (List StepState)
  | [] => { session := s, result := .ok [] }
  | k :: rest =>
    let stepped := s.stepLane host k
    match stepped.result with
    | .error fault => { session := stepped.session, result := .error fault }
    | .ok states =>
      let others := stepped.session.stepInOrder host rest
      { others with result := others.result.map (states ++ ·) }

/-- The numbers of the lanes that a mask allows, from a number on. -/
def allowed : (index : Nat) → List Bool → List Nat
  | _, [] => []
  | index, false :: rest => allowed (index + 1) rest
  | index, true :: rest => index :: allowed (index + 1) rest

/-- The lanes of a mask have their turns in the order of their numbers. -/
theorem stepLanes_eq_stepInOrder (s : Session) (host : Host) (index : Nat) (mask : List Bool) :
    s.stepLanes host index mask = s.stepInOrder host (allowed index mask) := by
  induction mask generalizing s index with
  | nil => rfl
  | cons runs rest ih =>
      cases runs with
      | false => exact ih s (index + 1)
      | true =>
          rw [stepLanes, allowed, stepInOrder]
          dsimp only
          cases (s.stepLane host index).result with
          | error fault => rfl
          | ok states =>
              dsimp only
              rw [ih]

/-- A session in which some lanes have had their turns, each as if it were the first. -/
def afterTurns (s : Session) (host : Host) (done : List Nat) : Session :=
  { s with
    lanes := s.lanes.mapIdx fun j l =>
      if j ∈ done then (l.step (s.setting host j) s.world).lane else l
    steps := s.steps + if s.active ∈ done then 1 else 0 }

theorem getElem?_afterTurns (s : Session) (host : Host) (done : List Nat) (j : Nat) :
    (s.afterTurns host done).lanes[j]? = s.lanes[j]?.map fun l =>
      if j ∈ done then (l.step (s.setting host j) s.world).lane else l :=
  List.getElem?_mapIdx

theorem afterTurns_nil (s : Session) (host : Host) : s.afterTurns host [] = s := by
  have hlanes : (s.lanes.mapIdx fun j l =>
      if j ∈ ([] : List Nat) then (l.step (s.setting host j) s.world).lane else l) = s.lanes := by
    refine List.ext_getElem? fun j => ?_
    rw [List.getElem?_mapIdx]
    cases s.lanes[j]? <;> rfl
  unfold afterTurns
  rw [hlanes]
  rfl

theorem afterTurns_congr {done' : List Nat} (h : ∀ j, j ∈ done ↔ j ∈ done') :
    s.afterTurns host done = s.afterTurns host done' := by
  unfold afterTurns
  simp only [h]

/-- The turn of each lane succeeds, changes nothing that lanes share, and is the same whichever of the
    others have had theirs. -/
structure IndependentTurns (s : Session) (host : Host) : Prop where
  result : ∀ {k : Nat} {l : Lane}, s.lanes[k]? = some l →
    ∃ state, (l.step (s.setting host k) s.world).result = .ok state
  world : ∀ {k : Nat} {l : Lane}, s.lanes[k]? = some l →
    (l.step (s.setting host k) s.world).world = s.world
  step : ∀ {k : Nat} {l : Lane} {done : List Nat}, s.lanes[k]? = some l → k ∉ done →
    l.step ((s.afterTurns host done).setting host k) s.world = l.step (s.setting host k) s.world

namespace IndependentTurns

/-- One more turn. -/
theorem stepLane (h : s.IndependentTurns host) (hl : s.lanes[k]? = some l) (hk : k ∉ done)
    {state : StepState} (hstate : (l.step (s.setting host k) s.world).result = .ok state) :
    (s.afterTurns host done).stepLane host k =
      { session := s.afterTurns host (k :: done)
        result := .ok (if k = s.active then [{ state with index := s.steps }] else []) } := by
  have hself : (s.afterTurns host done).lanes[k]? = some l := by
    rw [getElem?_afterTurns, hl, Option.map_some, if_neg hk]
  have hlanes : (s.afterTurns host done).lanes.set k (l.step (s.setting host k) s.world).lane =
      (s.afterTurns host (k :: done)).lanes := by
    refine List.ext_getElem? fun j => ?_
    rw [getElem?_afterTurns]
    by_cases hj : k = j
    · subst hj
      rw [List.getElem?_set_self (List.getElem?_eq_some_iff.1 hself).1, hl, Option.map_some,
        if_pos (List.mem_cons_self ..)]
    · rw [List.getElem?_set_ne hj, getElem?_afterTurns]
      simp only [List.mem_cons, Ne.symm hj, false_or]
  have hupdate : (s.afterTurns host done).update k (l.step (s.setting host k) s.world) =
      { s.afterTurns host (k :: done) with steps := (s.afterTurns host done).steps } := by
    unfold update
    rw [hlanes, h.world hl]
    rfl
  unfold Session.stepLane
  rw [hself]
  dsimp only
  rw [show (s.afterTurns host done).world = s.world from rfl, h.step hl hk, hupdate, hstate]
  dsimp only
  by_cases hactive : k = s.active
  · have hdone : s.active ∉ done := hactive ▸ hk
    have hsteps : (s.afterTurns host done).steps = s.steps :=
      show s.steps + (if s.active ∈ done then 1 else 0) = s.steps by rw [if_neg hdone, Nat.add_zero]
    have hsteps' : (s.afterTurns host (k :: done)).steps = s.steps + 1 :=
      show s.steps + (if s.active ∈ k :: done then 1 else 0) = s.steps + 1 by
        rw [if_pos (hactive ▸ List.mem_cons_self ..)]
    rw [if_pos hactive, if_pos (show k = (s.afterTurns host (k :: done)).active from hactive),
      hsteps, ← hsteps']
  · have hsteps : (s.afterTurns host (k :: done)).steps = (s.afterTurns host done).steps := by
      show s.steps + (if s.active ∈ k :: done then 1 else 0) =
        s.steps + (if s.active ∈ done then 1 else 0)
      simp only [List.mem_cons, Ne.symm hactive, false_or]
    rw [if_neg hactive, if_neg (show k ≠ (s.afterTurns host (k :: done)).active from hactive),
      ← hsteps]

/-- What turns in some order leave depends on which lanes have had them, and so does what they
    report. -/
theorem exists_stepInOrder_eq (h : s.IndependentTurns host) :
    ∃ state, ∀ order done, order.Nodup → (∀ k ∈ order, k < s.lanes.length ∧ k ∉ done) →
      (s.afterTurns host done).stepInOrder host order =
        { session := s.afterTurns host (order ++ done)
          result := .ok (if s.active ∈ order then [state] else []) } := by
  -- the state of the reporting lane, should it be one of the lanes
  obtain ⟨state, hactive⟩ : ∃ state : StepState, ∀ l, s.lanes[s.active]? = some l →
      ∃ state', (l.step (s.setting host s.active) s.world).result = .ok state' ∧
        { state' with index := s.steps } = state := by
    cases hl : s.lanes[s.active]? with
    | none => exact ⟨default, fun l h => nomatch h⟩
    | some l =>
        obtain ⟨state, hstate⟩ := h.result hl
        refine ⟨{ state with index := s.steps }, fun l' hl' => ?_⟩
        obtain rfl := Option.some.inj hl'
        exact ⟨state, hstate, rfl⟩
  refine ⟨state, fun order => ?_⟩
  induction order with
  | nil => exact fun done _ _ => rfl
  | cons k rest ih =>
      intro done hnodup hdone
      obtain ⟨hlt, hk⟩ := hdone k (List.mem_cons_self ..)
      obtain ⟨hrest, hnodup⟩ := List.nodup_cons.1 hnodup
      have hl := List.getElem?_eq_getElem hlt
      obtain ⟨state', hstate⟩ := h.result hl
      have hothers := ih (k :: done) hnodup fun j hj =>
        ⟨(hdone j (List.mem_cons_of_mem _ hj)).1, fun hmem => by
          rcases List.mem_cons.1 hmem with rfl | hmem
          · exact hrest hj
          · exact (hdone j (List.mem_cons_of_mem _ hj)).2 hmem⟩
      have hsession : s.afterTurns host (rest ++ k :: done) = s.afterTurns host (k :: rest ++ done) :=
        afterTurns_congr fun j => by simp only [List.mem_append, List.mem_cons]; tauto
      rw [stepInOrder, h.stepLane hl hk hstate]
      dsimp only
      rw [hothers, hsession]
      by_cases hkactive : k = s.active
      · subst hkactive
        obtain ⟨state'', hstate'', rfl⟩ := hactive _ hl
        rw [hstate] at hstate''
        cases hstate''
        rw [if_pos rfl, if_neg hrest, if_pos (List.mem_cons_self ..)]
        rfl
      · rw [if_neg hkactive]
        simp only [List.mem_cons, Ne.symm hkactive, false_or]
        rfl

/-- Every order of the same lanes leaves the same and reports the same. -/
theorem stepInOrder_of_perm (h : s.IndependentTurns host) (hperm : order.Perm order')
    (hnodup : order'.Nodup) (hlt : ∀ k ∈ order', k < s.lanes.length) :
    s.stepInOrder host order = s.stepInOrder host order' := by
  obtain ⟨state, hstate⟩ := h.exists_stepInOrder_eq
  have heq := hstate order [] (hperm.nodup_iff.2 hnodup) fun k hk =>
    ⟨hlt k (hperm.mem_iff.1 hk), List.not_mem_nil⟩
  have heq' := hstate order' [] hnodup fun k hk => ⟨hlt k hk, List.not_mem_nil⟩
  rw [afterTurns_nil, List.append_nil] at heq heq'
  rw [heq, heq', afterTurns_congr fun _ => hperm.mem_iff]
  simp only [hperm.mem_iff]

end IndependentTurns

end Session

end Lockstep
