import Lockstep.Host.Unbound
import Lockstep.Proofs.Lane.Spin
import Lockstep.Proofs.Session.Mask
import Lockstep.Proofs.Session.Rounds

set_option autoImplicit false

/-! # Calls that return

Only the reporting lane counts steps, and only while it is let run. So a call returns unless from
some round on the reporting lane waits in every round (`Session.resume_returns_iff`). It can come to
that: lanes that branch to their own block for ever never leave it, and the reporting lane waits for
them in the next uniform block (`Session.waitsForever_of_spins`). -/

namespace Lockstep

namespace Session

variable {s s' : Session} {host : Host} {states : List StepState}

/-! ## Steps of the reporting lane -/

theorem steps_stepLane {index : Nat} (h : (s.stepLane host index).result = .ok states) :
    (s.stepLane host index).session.steps =
      s.steps + if index = s.active ∧ s.active < s.lanes.length then 1 else 0 := by
  cases hl : s.lanes[index]? with
  | none =>
      have hle := List.getElem?_eq_none_iff.1 hl
      rw [stepLane_of_none hl, if_neg fun h => by omega]
      rfl
  | some l =>
      have hlt : index < s.lanes.length := (List.getElem?_eq_some_iff.1 hl).1
      obtain ⟨state, -, hsession, -⟩ := stepLane_ok hl h
      rw [hsession]
      show s.steps + (if index = s.active then 1 else 0) = _
      by_cases hactive : index = s.active
      · rw [if_pos hactive, if_pos ⟨hactive, hactive ▸ hlt⟩]
      · rw [if_neg hactive, if_neg fun h => hactive h.1]

/-- Stepping the lanes of a mask counts a step if the reporting lane is one of them. -/
theorem steps_stepLanes {index : Nat} {mask : List Bool}
    (h : (s.stepLanes host index mask).result = .ok states) :
    (s.stepLanes host index mask).session.steps =
      s.steps + if index ≤ s.active ∧ mask[s.active - index]? = some true ∧
        s.active < s.lanes.length then 1 else 0 := by
  induction mask generalizing s index states with
  | nil => simp [stepLanes]
  | cons runs rest ih =>
      cases runs with
      | false =>
          rw [stepLanes] at h ⊢
          rw [ih h]
          by_cases hle : index + 1 ≤ s.active
          · rw [getElem?_mask_cons hle]
            simp [hle, Nat.le_of_succ_le hle]
          · rw [if_neg fun h => hle h.1, if_neg]
            rintro ⟨hle', hrun, -⟩
            rw [show s.active - index = 0 by omega] at hrun
            cases hrun
      | true =>
          obtain ⟨first, others, hfirst, hrest, hsession, -⟩ := stepLanes_ok h
          have hlane := lanesBy_stepLane hfirst
          rw [hsession, ih hrest, steps_stepLane hfirst, hlane.active, hlane.length]
          -- the reporting lane is this one, or the rest of the mask decides on it
          by_cases hle : index + 1 ≤ s.active
          · rw [getElem?_mask_cons hle, if_neg (by omega)]
            simp [hle, Nat.le_of_succ_le hle]
          · rw [if_neg fun h : _ ∧ _ => hle h.1, Nat.add_zero]
            by_cases hidx : index = s.active
            · simp [hidx]
            · rw [if_neg fun h => hidx h.1, if_neg (by omega)]

theorem steps_refreshLanes (s : Session) (index count : Nat) :
    (s.refreshLanes index count).session.steps = s.steps := by
  induction count generalizing s index with
  | zero => rfl
  | succ count ih =>
      rw [refreshLanes]
      split
      · rfl
      · dsimp only
        split
        · rfl
        · exact ih _ _

theorem steps_refresh (s : Session) (writes : Nat) : (s.refresh writes).session.steps = s.steps := by
  unfold refresh
  split
  · rfl
  · exact steps_refreshLanes ..

theorem length_mask (s : Session) : s.mask.length = s.lanes.length := by
  unfold mask activeMask
  dsimp only
  split
  · exact List.length_map _
  · split <;> exact List.length_map _

/-- A round counts a step exactly when the mask lets the reporting lane run. -/
theorem steps_of_round (h : (s.round host).result = .ok states) :
    (s.round host).session.steps = s.steps + if s.mask[s.active]? = some true then 1 else 0 := by
  obtain ⟨hstepped, -, hsession⟩ := round_ok h
  rw [hsession]
  show (Session.refresh _ _).session.steps = _
  rw [steps_refresh, steps_stepLanes hstepped, Nat.sub_zero, ← length_mask]
  by_cases hactive : s.mask[s.active]? = some true
  · rw [if_pos hactive, if_pos ⟨Nat.zero_le _, hactive, (List.getElem?_eq_some_iff.1 hactive).1⟩]
  · rw [if_neg hactive, if_neg fun h => hactive h.2.1]

/-- A reporting lane that has finished stays so. -/
theorem isFinished_of_round (h : (s.round host).result = .ok states)
    (hrun : ¬ (s.round host).session.isFinished) : ¬ s.isFinished := by
  obtain ⟨l', hl', hfin'⟩ := isFinished_iff.1 hrun
  have hlanes := lanes_of_round h
  rw [activeLane?, hlanes.active] at hl'
  obtain ⟨l, hl, -⟩ := hlanes.lane _ l' hl'
  exact isFinished_iff.2 ⟨l, hl, fun hfin => hfin' (isFinished_of_lane h hl hl' hfin)⟩

/-! ## Going on -/

/-- A call that is to stop at a number of steps goes on with another round. -/
structure GoesOn (s : Session) (stop : Nat) : Prop where
  budget : s.steps < stop
  limit : ∀ limit, s.config.maxTotalSteps = some limit → s.steps < limit.toNat
  running : ¬ s.isFinished

instance (s : Session) (stop : Nat) : Decidable (s.GoesOn stop) :=
  decidable_of_iff (s.steps < stop ∧ (s.config.maxTotalSteps.all fun limit => s.steps < limit.toNat) ∧
      ¬ s.isFinished)
    ⟨fun ⟨hbudget, hlimit, hrun⟩ => ⟨hbudget, by simpa [Option.all_eq_true] using hlimit, hrun⟩,
      fun ⟨hbudget, hlimit, hrun⟩ => ⟨hbudget, by simpa [Option.all_eq_true] using hlimit, hrun⟩⟩

/-- A session that goes on after a round has gone on before it. -/
theorem GoesOn.of_round {stop : Nat} (h : (s.round host).result = .ok states)
    (hnext : (s.round host).session.GoesOn stop) : s.GoesOn stop := by
  have hsteps := steps_of_round h
  have hle : s.steps ≤ (s.round host).session.steps := by omega
  refine ⟨Nat.lt_of_le_of_lt hle hnext.budget, fun limit hlimit => ?_,
    isFinished_of_round h hnext.running⟩
  exact Nat.lt_of_le_of_lt hle (hnext.limit limit ((lanes_of_round h).config ▸ hlimit))

/-- While the reporting lane waits, a session goes on as it did. -/
theorem GoesOn.round {stop : Nat} (hs : s.GoesOn stop) (hwaits : s.Waits)
    (h : (s.round host).result = .ok states) (hwaits' : (s.round host).session.Waits) :
    (s.round host).session.GoesOn stop := by
  have hsteps : (s.round host).session.steps = s.steps := by
    rw [steps_of_round h, if_neg (waits_iff.1 hwaits).2, Nat.add_zero]
  refine ⟨hsteps ▸ hs.budget, ?_, (waits_iff.1 hwaits').1⟩
  rw [hsteps, (lanes_of_round h).config]
  exact hs.limit

/-- A call has no answer after so many rounds if it goes on and the first round succeeds and the call
    has no answer after the others. -/
theorem runUntil_eq_none {stop n : Nat} {acc : Array StepState} :
    runUntil host stop (n + 1) s acc = none ↔
      s.GoesOn stop ∧ ∃ states, (s.round host).result = .ok states ∧
        runUntil host stop n (s.round host).session (acc.append states.toArray) = none := by
  rw [runUntil]
  constructor
  · intro h
    split at h
    · cases h
    · next hrun =>
        rw [not_or] at hrun
        split at h
        · cases h
        · next hlimit =>
            refine ⟨⟨Nat.lt_of_not_ge hrun.1, fun limit hmax => ?_, hrun.2⟩, ?_⟩
            · rw [hmax] at hlimit
              simpa [Option.filter_eq_none_iff] using hlimit
            · dsimp only at h
              split at h
              · cases h
              · next states hok => exact ⟨states, hok, h⟩
  · rintro ⟨hs, states, hok, h⟩
    rw [if_neg (not_or.2 ⟨Nat.not_le_of_lt hs.budget, hs.running⟩)]
    have hlimit : s.config.maxTotalSteps.filter (·.toNat ≤ s.steps) = none := by
      rw [Option.filter_eq_none_iff]
      intro limit hmax
      simpa using hs.limit limit hmax
    rw [hlimit]
    dsimp only
    rw [hok]
    exact h

/-- From now on every round succeeds, and the reporting lane waits in all of them. -/
def WaitsForever (host : Host) (s : Session) : Prop :=
  ∀ n, ∃ t, s.advance host n = .ok t ∧ t.Waits

theorem WaitsForever.round (h : s.WaitsForever host) :
    s.Waits ∧ ∃ states, (s.round host).result = .ok states ∧
      (s.round host).session.WaitsForever host := by
  obtain ⟨_, hzero, hwaits⟩ := h 0
  cases hzero
  obtain ⟨t, ht, -⟩ := h 1
  obtain ⟨states, hok, -⟩ := advance_succ.1 ht
  refine ⟨hwaits, states, hok, ?_⟩
  intro n
  obtain ⟨u, hu, hwaits'⟩ := h (n + 1)
  obtain ⟨_, -, hu⟩ := advance_succ.1 hu
  exact ⟨u, hu, hwaits'⟩

/-- A call that goes on has no answer while the reporting lane waits for ever. -/
theorem WaitsForever.runUntil_eq_none {stop : Nat} (h : s.WaitsForever host) (hs : s.GoesOn stop)
    (n : Nat) (acc : Array StepState) : runUntil host stop n s acc = none := by
  induction n generalizing s acc with
  | zero => rfl
  | succ n ih =>
      obtain ⟨hwaits, states, hok, hnext⟩ := h.round
      refine Session.runUntil_eq_none.2 ⟨hs, states, hok, ?_⟩
      exact ih hnext (hs.round hwaits hok hnext.round.1) _

/-- Neither has one that comes to this after some rounds. -/
theorem runUntil_eq_none_of_waitsForever {stop k : Nat} (hk : s.advance host k = .ok s')
    (hs' : s'.GoesOn stop) (h : s'.WaitsForever host) :
    s.GoesOn stop ∧ ∀ n acc, runUntil host stop n s acc = none := by
  induction k generalizing s with
  | zero =>
      cases hk
      exact ⟨hs', fun n acc => h.runUntil_eq_none hs' n acc⟩
  | succ k ih =>
      obtain ⟨states, hok, hk⟩ := advance_succ.1 hk
      obtain ⟨hnext, hnone⟩ := ih hk
      have hs := GoesOn.of_round hok hnext
      refine ⟨hs, ?_⟩
      intro n acc
      cases n with
      | zero => rfl
      | succ n => exact runUntil_eq_none.2 ⟨hs, states, hok, hnone n _⟩

/-- A call that never has an answer goes on after any number of rounds. -/
theorem goesOn_of_runUntil_eq_none {stop : Nat} (acc : Array StepState)
    (h : ∀ n, runUntil host stop n s acc = none) (n : Nat) :
    ∃ t, s.advance host n = .ok t ∧ t.GoesOn stop := by
  induction n generalizing s acc with
  | zero => exact ⟨s, rfl, (runUntil_eq_none.1 (h 1)).1⟩
  | succ n ih =>
      obtain ⟨-, states, hok, -⟩ := runUntil_eq_none.1 (h 1)
      obtain ⟨t, ht, hgoes⟩ := ih _ fun m => by
        obtain ⟨-, states', hok', hm⟩ := runUntil_eq_none.1 (h (m + 1))
        cases hok.symm.trans hok'
        exact hm
      exact ⟨t, advance_succ.2 ⟨states, hok, ht⟩, hgoes⟩

theorem steps_le_of_advance {n : Nat} (h : s.advance host n = .ok s') : s.steps ≤ s'.steps := by
  refine advance_induction h (P := fun t => s.steps ≤ t.steps) (Nat.le_refl _) fun t states ht hok => ?_
  have := steps_of_round hok
  omega

/-- In a session that always goes on the steps run out, unless from some round on the reporting lane
    waits for ever. -/
theorem waitsForever_of_goesOn (host : Host) (stop : Nat)
    (h : ∀ n, ∃ t, s.advance host n = .ok t ∧ t.GoesOn stop) :
    ∃ n t, s.advance host n = .ok t ∧ t.GoesOn stop ∧ t.WaitsForever host := by
  generalize hleft : stop - s.steps = left
  -- on the steps that are left: a round in which the reporting lane does not wait takes one
  induction left using Nat.strongRecOn generalizing s with
  | ind left ih =>
      by_cases hwaits : s.WaitsForever host
      · obtain ⟨_, hzero, hs⟩ := h 0
        cases hzero
        exact ⟨0, s, rfl, hs, hwaits⟩
      · obtain ⟨n, hn⟩ := not_forall.1 hwaits
        obtain ⟨t, ht, hgoes⟩ := h n
        have hmask : t.mask[t.active]? = some true := by
          by_contra hmask
          exact hn ⟨t, ht, waits_iff.2 ⟨hgoes.running, hmask⟩⟩
        obtain ⟨u, hu, -⟩ := h (n + 1)
        rw [advance_add ht] at hu
        obtain ⟨states, hok, hu⟩ := advance_succ.1 hu
        cases hu
        have hsteps := steps_of_round hok
        rw [if_pos hmask] at hsteps
        have hle := steps_le_of_advance ht
        have hlt := hgoes.budget
        have hafter : ∀ m, s.advance host (n + (m + 1)) = (t.round host).session.advance host m := by
          intro m
          rw [advance_add ht, advance, hok]
        obtain ⟨m, v, hv, hv'⟩ := ih (stop - (t.round host).session.steps) (by omega)
          (fun m => hafter m ▸ h (n + (m + 1))) rfl
        exact ⟨n + (m + 1), v, (hafter m).trans hv, hv'⟩

/-! ## Waiting for lanes that spin -/

/-- All lanes are where they were, and nothing that they share has changed. -/
structure Stays (s s' : Session) : Prop where
  setup : s'.setup = s.setup
  world : s'.world = s.world
  places : s'.lanes.map Lane.place = s.lanes.map Lane.place

namespace Stays

theorem refl (s : Session) : Stays s s := ⟨rfl, rfl, rfl⟩

theorem trans {s'' : Session} (h : Stays s s') (h' : Stays s' s'') : Stays s s'' :=
  ⟨h'.setup.trans h.setup, h'.world.trans h.world, h'.places.trans h.places⟩

theorem program (h : Stays s s') : s'.program = s.program := program_of_setup h.setup

theorem analyses (h : Stays s s') : s'.analyses = s.analyses := analyses_of_setup h.setup

theorem active (h : Stays s s') : s'.active = s.active := active_of_setup h.setup

theorem mask (h : Stays s s') : s'.mask = s.mask := mask_of_places h.program h.analyses h.places

/-- Each lane is where a lane was. -/
theorem lane (h : Stays s s') {j : Nat} {l' : Lane} (hl' : s'.lanes[j]? = some l') :
    ∃ l, s.lanes[j]? = some l ∧ l'.place = l.place := by
  have hj := congrArg (·[j]?) h.places
  simp only [List.getElem?_map, hl', Option.map_some] at hj
  obtain ⟨l, hl, hplace⟩ := Option.map_eq_some_iff.1 hj.symm
  exact ⟨l, hl, hplace.symm⟩

theorem waits (h : Stays s s') (hs : s.Waits) : s'.Waits := by
  obtain ⟨hrun, hmask⟩ := waits_iff.1 hs
  refine waits_iff.2 ⟨fun hfin => hrun ?_, by rwa [h.mask, h.active]⟩
  unfold isFinished activeLane? at hfin ⊢
  have hj := congrArg (·[s.active]?) h.places
  simp only [List.getElem?_map] at hj
  rw [h.active] at hfin
  cases hl' : s'.lanes[s.active]? with
  | none =>
      rw [hl'] at hj
      rw [Option.map_eq_none_iff.1 hj.symm]
      rfl
  | some l' =>
      obtain ⟨l, hl, hplace⟩ := h.lane hl'
      rw [hl', Option.all_some, Lane.isFinished_of_place hplace] at hfin
      rwa [hl, Option.all_some]

end Stays

/-- Every lane that the mask lets run spins. -/
def Spinning (s : Session) : Prop :=
  ∀ (j : Nat) (l : Lane), s.mask[j]? = some true → s.lanes[j]? = some l →
    ¬ l.isFinished ∧ l.place.Spins s.program s.analyses

instance (s : Session) : Decidable s.Spinning :=
  decidable_of_iff (∀ j : Fin s.lanes.length, s.mask[j.1]? = some true →
      ¬ s.lanes[j].isFinished ∧ s.lanes[j].place.Spins s.program s.analyses)
    ⟨fun h j l hj hl => by
      obtain ⟨hlt, rfl⟩ := List.getElem?_eq_some_iff.1 hl
      exact h ⟨j, hlt⟩ hj, fun h j hj => h j.1 _ hj (List.getElem?_eq_getElem j.2)⟩

theorem Spinning.of_stays (hs : s.Spinning) (h : Stays s s') : s'.Spinning := by
  intro j l' hj hl'
  obtain ⟨l, hl, hplace⟩ := h.lane hl'
  obtain ⟨hfin, hspins⟩ := hs j l (h.mask ▸ hj) hl
  rw [h.program, h.analyses, hplace, Lane.isFinished_of_place hplace]
  exact ⟨hfin, hspins⟩

theorem stays_stepLane (host : Host) {index : Nat} {l : Lane} (hl : s.lanes[index]? = some l)
    (hfin : ¬ l.isFinished) (h : l.place.Spins s.program s.analyses) :
    ∃ states, (s.stepLane host index).result = .ok states ∧
      Stays s (s.stepLane host index).session := by
  obtain ⟨state, hok, hworld, hplace⟩ :=
    Lane.step_of_spins (s := s.setting host index) hfin h s.world
  have hstays : Stays s (s.update index (l.step (s.setting host index) s.world)) := by
    refine ⟨rfl, hworld, List.ext_getElem? ?_⟩
    intro j
    simp only [update, List.getElem?_map, List.getElem?_set]
    split
    · next hj =>
        subst hj
        rw [if_pos (List.getElem?_eq_some_iff.1 hl).1, hl]
        exact congrArg some hplace
    · rfl
  unfold stepLane
  rw [hl]
  dsimp only
  rw [hok]
  dsimp only
  split
  · exact ⟨_, rfl, hstays.trans ⟨rfl, rfl, rfl⟩⟩
  · exact ⟨_, rfl, hstays⟩

theorem stays_stepLanes (host : Host) (index : Nat) (mask : List Bool)
    (hlength : index + mask.length = s.lanes.length)
    (h : ∀ (j : Nat) (l : Lane), mask[j]? = some true → s.lanes[index + j]? = some l →
      ¬ l.isFinished ∧ l.place.Spins s.program s.analyses) :
    ∃ states, (s.stepLanes host index mask).result = .ok states ∧
      Stays s (s.stepLanes host index mask).session := by
  induction mask generalizing s index with
  | nil => exact ⟨_, rfl, .refl s⟩
  | cons runs rest ih =>
      rw [List.length_cons] at hlength
      cases runs with
      | false =>
          refine ih (index + 1) (by omega) fun j l hj hl => h (j + 1) l hj ?_
          rwa [show index + (j + 1) = index + 1 + j by omega]
      | true =>
          have hlt : index < s.lanes.length := by omega
          obtain ⟨hfin, hspins⟩ := h 0 _ rfl (List.getElem?_eq_getElem hlt)
          obtain ⟨states, hok, hstays⟩ :=
            stays_stepLane host (List.getElem?_eq_getElem hlt) hfin hspins
          have hlength' : (s.stepLane host index).session.lanes.length = s.lanes.length := by
            simpa using congrArg List.length hstays.places
          -- the lanes behind this one are where they were, and still spin
          obtain ⟨states', hok', hstays'⟩ := ih (s := (s.stepLane host index).session)
            (index + 1) (by omega) fun j l' hj hl' => by
              obtain ⟨l, hl, hplace⟩ := hstays.lane hl'
              rw [show index + 1 + j = index + (j + 1) by omega] at hl
              obtain ⟨hfin, hspins⟩ := h (j + 1) l hj hl
              rw [hstays.program, hstays.analyses, hplace, Lane.isFinished_of_place hplace]
              exact ⟨hfin, hspins⟩
          rw [stepLanes]
          dsimp only
          rw [hok]
          dsimp only
          rw [hok']
          exact ⟨_, rfl, hstays.trans hstays'⟩

/-- A round in which all lanes that run spin succeeds and leaves every lane where it is. -/
theorem Spinning.round (hs : s.Spinning) (host : Host) :
    ∃ states, (s.round host).result = .ok states ∧ Stays s (s.round host).session := by
  obtain ⟨states, hok, hstays⟩ := stays_stepLanes host 0 s.mask
    (by rw [Nat.zero_add, length_mask]) fun j l hj hl => hs j l hj (by rwa [Nat.zero_add] at hl)
  -- nothing was written, so no lane reads the global variables again
  have hrefresh : (s.stepLanes host 0 s.mask).session.refresh s.world.memory.writes =
      { session := (s.stepLanes host 0 s.mask).session, result := .ok () } := by
    unfold refresh
    rw [hstays.world, if_pos rfl]
  unfold Session.round
  dsimp only
  rw [hok]
  dsimp only
  rw [hrefresh]
  refine ⟨states, rfl, hstays.trans ⟨rfl, rfl, List.ext_getElem? fun j => ?_⟩⟩
  simp only [skipNops, List.getElem?_map, List.getElem?_mapIdx, Option.map_map]
  cases hl : (s.stepLanes host 0 s.mask).session.lanes[j]? with
  | none => rfl
  | some l =>
      refine congrArg some ?_
      show Lane.place (if s.mask[j]?.getD false then l.skipNops _ else l) = l.place
      split
      · next hmask =>
          obtain ⟨l₀, hl₀, hplace⟩ := hstays.lane hl
          obtain ⟨hfin, hspins⟩ := hs j l₀ (by cases hj : s.mask[j]? <;> simp_all) hl₀
          rw [← hplace, ← hstays.program] at hspins
          rw [← Lane.isFinished_of_place hplace] at hfin
          exact Lane.place_skipNops_of_spins hfin hspins
      · rfl

/-- The reporting lane waits for ever for lanes that spin. -/
theorem waitsForever_of_spinning (hwaits : s.Waits) (hs : s.Spinning) (host : Host) :
    s.WaitsForever host := by
  intro n
  induction n generalizing s with
  | zero => exact ⟨s, rfl, hwaits⟩
  | succ n ih =>
      obtain ⟨states, hok, hstays⟩ := hs.round host
      obtain ⟨t, ht, htwaits⟩ := ih (hstays.waits hwaits) (hs.of_stays hstays)
      exact ⟨t, advance_succ.2 ⟨states, hok, ht⟩, htwaits⟩

/-! ## When calls return -/

/-- The lanes of other stages do not wait, and their calls always have an answer. -/
theorem runUntil_returns_of_stage (hstage : s.program.stage ≠ .pixel) (host : Host) (stop : Nat)
    (acc : Array StepState) : ∃ n done, runUntil host stop n s acc = some done := by
  by_contra hno
  obtain ⟨n, t, ht, -, hwaits⟩ := waitsForever_of_goesOn host stop
    (goesOn_of_runUntil_eq_none acc fun n => by
      by_contra hsome
      obtain ⟨done, hdone⟩ := Option.ne_none_iff_exists'.1 hsome
      exact hno ⟨n, done, hdone⟩)
  have hprogram : t.program = s.program :=
    advance_induction ht (P := fun t => t.program = s.program) rfl fun _ _ ht hok =>
      (lanes_of_round hok).program.trans ht
  exact hstage (hprogram ▸ hwaits.round.1.stage)

/-- A call has an answer unless, before its budget of steps and the limit of the session are used up,
    it comes to a state from which the reporting lane waits in a uniform block for ever. -/
theorem resume_returns_iff (s : Session) (host : Host) :
    (∃ rounds done, s.resume host rounds = some done) ↔
      ¬ (¬ s.isTerminated ∧ s.isStarted ∧ ∃ n t, s.advance host n = .ok t ∧
        t.GoesOn (s.steps + s.config.stepsPerContinue.toNat) ∧ t.WaitsForever host) := by
  unfold resume run
  by_cases hterm : s.isTerminated
  · simp [hterm]
  · by_cases hstart : s.isStarted
    · simp only [hterm, hstart, if_true, if_false, Bool.false_eq_true, not_false_iff, true_and,
        Option.map_eq_some_iff]
      constructor
      · rintro ⟨rounds, -, done, hdone, -⟩ ⟨n, t, ht, hgoes, hwaits⟩
        rw [(runUntil_eq_none_of_waitsForever ht hgoes hwaits).2] at hdone
        cases hdone
      · intro h
        by_contra hno
        refine h (waitsForever_of_goesOn host _ (goesOn_of_runUntil_eq_none #[] fun n => ?_))
        by_contra hsome
        obtain ⟨done, hdone⟩ := Option.ne_none_iff_exists'.1 hsome
        exact hno ⟨n, _, done, hdone, rfl⟩
    · simp [hterm, hstart]

/-- A pixel program in which the lanes with an odd number spin, and the others wait for them. -/
def oddLanesSpin : Program :=
  { stage := .pixel
    functions := #[{
      name := "oddLanesSpin"
      blocks := #[{}, { preds := [0, 1] }, { preds := [0] }]
      instrs := #[
        { op := .call, ty := .int 32, result := some ⟨0⟩,
          callee := some (.intrinsic .flattenedThreadIdInGroup) },
        { op := .br, args := [.block 1, .block 2, .ref ⟨0⟩] },
        { op := .br, args := [.block 1] },
        { op := .ret }] }]
    idCount := 1 }

/-- The second call of a session of two such lanes never has an answer, although the session is to
    end after ten steps: from the third round on the reporting lane waits for the other. -/
theorem oddLanesSpin_never_returns :
    ∃ s₀ s states, Session.new oddLanesSpin {} {} [.numbered 0, .numbered 1] 0
        { maxTotalSteps := some 10 } = .ok s₀ ∧
      s₀.resume .unbound 1 = some { session := s, result := .ok states } ∧
      ∀ rounds, s.resume .unbound rounds = none := by
  have h : ∃ s₀, Session.new oddLanesSpin {} {} [.numbered 0, .numbered 1] 0
        { maxTotalSteps := some 10 } = .ok s₀ ∧ ¬ s₀.isTerminated ∧ ¬ s₀.isStarted ∧
      ∃ states, s₀.start.result = .ok states ∧ ¬ s₀.start.session.isTerminated ∧
        s₀.start.session.isStarted ∧
      ∃ t, s₀.start.session.advance .unbound 2 = .ok t ∧ t.Waits ∧ t.Spinning ∧
        t.GoesOn (s₀.start.session.steps + s₀.start.session.config.stepsPerContinue.toNat) := by
    decide +kernel
  obtain ⟨s₀, hnew, hterm₀, hstart₀, states, hok, hterm, hstart, t, ht, hwaits, hspins, hgoes⟩ := h
  refine ⟨s₀, s₀.start.session, states, hnew, ?_, ?_⟩
  · unfold resume run
    rw [if_neg hterm₀, if_neg hstart₀, Option.map_some, hok]
    exact congrArg some (congrArg (Progress.mk s₀.start.session) hok)
  · intro rounds
    obtain ⟨-, hnone⟩ :=
      runUntil_eq_none_of_waitsForever ht hgoes (waitsForever_of_spinning hwaits hspins .unbound)
    unfold resume run
    rw [if_neg hterm, if_pos hstart, hnone, Option.map_none]

end Session

end Lockstep
