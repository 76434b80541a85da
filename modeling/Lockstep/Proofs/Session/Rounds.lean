import Lockstep.Session
import Lockstep.Proofs.Lane.Run

set_option autoImplicit false

/-! # Rounds of a session

A round that succeeds gives each lane that the mask allows one step, lets lanes read the global
variables again, and moves those that stepped past markers; it does nothing else to a lane
(`Session.lanes_of_round`). So the lanes of a session are runs of single lanes
(`Session.Reached.run`). -/

namespace Lockstep

namespace Session

/-- What a session is set up with and keeps. -/
def setup (s : Session) : Session :=
  { s with lanes := [], world := {}, steps := 0, isStarted := false, isTerminated := false }

section

variable {s s' : Session} (h : s'.setup = s.setup)
include h

theorem program_of_setup : s'.program = s.program :=
  show s'.setup.program = s.setup.program from congrArg Session.program h

theorem bindings_of_setup : s'.bindings = s.bindings :=
  show s'.setup.bindings = s.setup.bindings from congrArg Session.bindings h

theorem analyses_of_setup : s'.analyses = s.analyses :=
  show s'.setup.analyses = s.setup.analyses from congrArg Session.analyses h

theorem active_of_setup : s'.active = s.active :=
  show s'.setup.active = s.setup.active from congrArg Session.active h

theorem config_of_setup : s'.config = s.config :=
  show s'.setup.config = s.setup.config from congrArg Session.config h

end

/-- The lanes of a session, each related to the lane of the same number in another. -/
structure LanesBy (R : Nat → Lane → Lane → Prop) (s s' : Session) : Prop where
  setup : s'.setup = s.setup
  length : s'.lanes.length = s.lanes.length
  lane : ∀ j l', s'.lanes[j]? = some l' → ∃ l, s.lanes[j]? = some l ∧ R j l l'

namespace LanesBy

variable {R S T : Nat → Lane → Lane → Prop} {s s' s'' : Session}

theorem refl (h : ∀ j l, R j l l) (s : Session) : LanesBy R s s :=
  ⟨rfl, rfl, fun j l hl => ⟨l, hl, h j l⟩⟩

theorem trans (h : LanesBy R s s') (h' : LanesBy S s' s'')
    (hT : ∀ j l l' l'', s.lanes[j]? = some l → R j l l' → S j l' l'' → T j l l'') :
    LanesBy T s s'' := by
  refine ⟨h'.setup.trans h.setup, h'.length.trans h.length, ?_⟩
  intro j l'' hl''
  obtain ⟨l', hl', h₂⟩ := h'.lane j l'' hl''
  obtain ⟨l, hl, h₁⟩ := h.lane j l' hl'
  exact ⟨l, hl, hT j l l' l'' hl h₁ h₂⟩

theorem program (h : LanesBy R s s') : s'.program = s.program := program_of_setup h.setup

theorem bindings (h : LanesBy R s s') : s'.bindings = s.bindings := bindings_of_setup h.setup

theorem active (h : LanesBy R s s') : s'.active = s.active := active_of_setup h.setup

theorem config (h : LanesBy R s s') : s'.config = s.config := config_of_setup h.setup

theorem analyses (h : LanesBy R s s') : s'.analyses = s.analyses := analyses_of_setup h.setup

theorem imp (h : LanesBy R s s') (hS : ∀ j l l', R j l l' → S j l l') : LanesBy S s s' := by
  refine ⟨h.setup, h.length, fun j l' hl' => ?_⟩
  obtain ⟨l, hl, hR⟩ := h.lane j l' hl'
  exact ⟨l, hl, hS j l l' hR⟩

/-- A session in which one lane is replaced. -/
theorem set {l l' : Lane} {index : Nat} (hl : s.lanes[index]? = some l)
    (hlanes : s'.lanes = s.lanes.set index l') (hsetup : s'.setup = s.setup)
    (hR : R index l l') (hsame : ∀ j l, j ≠ index → R j l l) : LanesBy R s s' := by
  refine ⟨hsetup, by rw [hlanes, List.length_set], ?_⟩
  intro j k hk
  rw [hlanes, List.getElem?_set] at hk
  split at hk
  · next hj =>
      subst hj
      split at hk
      · cases hk
        exact ⟨l, hl, hR⟩
      · cases hk
  · next hj => exact ⟨k, hk, hsame j k fun h => hj h.symm⟩

/-- A lane that is related only to itself is the same in both. -/
theorem getElem?_eq (h : LanesBy R s s') {j : Nat} (hj : ∀ {l l'}, R j l l' → l' = l) :
    s'.lanes[j]? = s.lanes[j]? := by
  cases hl' : s'.lanes[j]? with
  | none =>
      have hlength := List.getElem?_eq_none_iff.1 hl'
      rw [h.length] at hlength
      exact (List.getElem?_eq_none hlength).symm
  | some l' =>
      obtain ⟨l, hl, hsame⟩ := h.lane j l' hl'
      rw [hl, hj hsame]

end LanesBy

/-! ## The parts of a round -/

variable {s : Session} {host : Host} {states : List StepState}

/-- Where there is no lane, a turn does nothing. -/
theorem stepLane_of_none {index : Nat} (hl : s.lanes[index]? = none) :
    s.stepLane host index = { session := s, result := .ok [] } := by
  unfold stepLane
  rw [hl]

/-- What the turn of a lane leaves and reports. -/
theorem stepLane_ok {index : Nat} {l : Lane} (hl : s.lanes[index]? = some l)
    (h : (s.stepLane host index).result = .ok states) :
    ∃ state, (l.step (s.setting host index) s.world).result = .ok state ∧
      (s.stepLane host index).session =
        { s.update index (l.step (s.setting host index) s.world) with
          steps := s.steps + if index = s.active then 1 else 0 } ∧
      states = if index = s.active then [{ state with index := s.steps }] else [] := by
  unfold stepLane at h ⊢
  rw [hl] at h ⊢
  dsimp only at h ⊢
  split at h
  · cases h
  · next state hstate =>
      refine ⟨state, hstate, ?_⟩
      split at h
      · next hactive =>
          cases h
          have hactive' : index = s.active := hactive
          rw [if_pos hactive, if_pos hactive', if_pos hactive']
          exact ⟨rfl, rfl⟩
      · next hactive =>
          cases h
          have hactive' : index ≠ s.active := hactive
          rw [if_neg hactive, if_neg hactive', if_neg hactive']
          exact ⟨rfl, rfl⟩

/-- The turns of lanes of which the first runs. -/
theorem stepLanes_ok {index : Nat} {rest : List Bool}
    (h : (s.stepLanes host index (true :: rest)).result = .ok states) :
    ∃ first others, (s.stepLane host index).result = .ok first ∧
      ((s.stepLane host index).session.stepLanes host (index + 1) rest).result = .ok others ∧
      (s.stepLanes host index (true :: rest)).session =
        ((s.stepLane host index).session.stepLanes host (index + 1) rest).session ∧
      states = first ++ others := by
  rw [stepLanes] at h ⊢
  dsimp only at h ⊢
  split at h
  · cases h
  · next first hfirst =>
      obtain ⟨others, hothers, rfl⟩ := ok_of_map h
      exact ⟨first, others, hfirst, hothers, rfl, rfl⟩

/-- What holds of a session and is kept by the turn of each lane holds after the turns of several. -/
theorem stepLanes_induction {P : Session → Prop} {index : Nat} {mask : List Bool} (hs : P s)
    (hlane : ∀ t index states, P t → (t.stepLane host index).result = .ok states →
      P (t.stepLane host index).session)
    (h : (s.stepLanes host index mask).result = .ok states) :
    P (s.stepLanes host index mask).session := by
  induction mask generalizing s index states with
  | nil => exact hs
  | cons runs rest ih =>
      cases runs with
      | false =>
          rw [stepLanes] at h ⊢
          exact ih hs h
      | true =>
          obtain ⟨first, others, hfirst, hrest, hsession, -⟩ := stepLanes_ok h
          rw [hsession]
          exact ih (hlane s index first hs hfirst) hrest

/-- A lane that reads the global variables again, and those after it. -/
theorem refreshLanes_ok {index count : Nat} {l : Lane} (hl : s.lanes[index]? = some l)
    (h : (s.refreshLanes index (count + 1)).result = .ok ()) :
    ∃ l', l.refreshGlobals s.world.memory s.bindings.globals = (.ok (), l') ∧
      s.refreshLanes index (count + 1) =
        ({ s with lanes := s.lanes.set index l' } : Session).refreshLanes (index + 1) count := by
  rw [refreshLanes, hl] at h ⊢
  dsimp only at h ⊢
  split at h
  · cases h
  · next hresult =>
      exact ⟨_, Prod.ext hresult rfl, rfl⟩

/-- What a round is put together from. -/
theorem round_ok (h : (s.round host).result = .ok states) :
    (s.stepLanes host 0 s.mask).result = .ok states ∧
      ((s.stepLanes host 0 s.mask).session.refresh s.world.memory.writes).result = .ok () ∧
      (s.round host).session =
        ((s.stepLanes host 0 s.mask).session.refresh s.world.memory.writes).session.skipNops s.mask := by
  unfold round at h ⊢
  dsimp only at h ⊢
  split at h
  · cases h
  · next states' hstepped =>
      split at h
      · cases h
      · next hrefreshed =>
          cases h
          exact ⟨hstepped, hrefreshed, rfl⟩

/-- What is done to one lane and then to those of the range behind it is done to a longer range. -/
theorem ranged_of_ranged {R : Lane → Lane → Prop} {index count j : Nat} {l l₁ l' : Lane}
    (h₁ : if j = index then R l l₁ else l₁ = l)
    (h₂ : if index + 1 ≤ j ∧ j < index + 1 + count then R l₁ l' else l' = l₁) :
    if index ≤ j ∧ j < index + (count + 1) then R l l' else l' = l := by
  rcases Nat.lt_trichotomy j index with hj | rfl | hj
  · rw [if_neg (Nat.ne_of_lt hj)] at h₁
    rw [if_neg (by omega)] at h₂
    rw [if_neg (by omega), h₂, h₁]
  · rw [if_pos rfl] at h₁
    rw [if_neg (by omega)] at h₂
    rw [if_pos (by omega), h₂]
    exact h₁
  · rw [if_neg (Nat.ne_of_gt hj)] at h₁
    rw [← h₁]
    by_cases hlt : j < index + 1 + count
    · rw [if_pos (by omega)] at h₂ ⊢
      exact h₂
    · rw [if_neg (by omega)] at h₂ ⊢
      exact h₂

/-- The lane that has its turn steps, and the others stay. -/
theorem lanesBy_stepLane {index : Nat} (h : (s.stepLane host index).result = .ok states) :
    LanesBy (fun j l l' => if j = index then Lane.Stepping s.program s.analyses l l' else l' = l)
      s (s.stepLane host index).session := by
  cases hl : s.lanes[index]? with
  | none =>
      rw [stepLane_of_none hl]
      refine ⟨rfl, rfl, fun j l hj => ⟨l, hj, ?_⟩⟩
      rw [if_neg]
      rintro rfl
      rw [hl] at hj
      cases hj
  | some l =>
      obtain ⟨state, hstate, hsession, -⟩ := stepLane_ok hl h
      rw [hsession]
      refine .set hl rfl rfl ?_ fun j _ hj => by rw [if_neg hj]
      rw [if_pos rfl]
      exact ⟨_, _, state, rfl, rfl, hstate, rfl⟩

/-- Behind the first lane of a mask the rest of the mask decides. -/
theorem getElem?_mask_cons {runs : Bool} {rest : List Bool} {index j : Nat} (hj : index + 1 ≤ j) :
    (runs :: rest)[j - index]? = rest[j - (index + 1)]? := by
  rw [show j - index = j - (index + 1) + 1 by omega, List.getElem?_cons_succ]

/-- The lanes that a mask allows step. -/
theorem lanesBy_stepLanes {index : Nat} {mask : List Bool}
    (h : (s.stepLanes host index mask).result = .ok states) :
    LanesBy (fun j l l' =>
        if index ≤ j ∧ mask[j - index]? = some true then Lane.Stepping s.program s.analyses l l'
        else l' = l)
      s (s.stepLanes host index mask).session := by
  induction mask generalizing s index states with
  | nil => exact .refl (fun j l => by simp) s
  | cons runs rest ih =>
      cases runs with
      | false =>
          rw [stepLanes] at h ⊢
          refine (LanesBy.refl (R := fun _ l l' => l' = l) (fun _ _ => rfl) s).trans (ih h) ?_
          rintro j l _ l' - rfl hstep
          by_cases hj : index + 1 ≤ j
          · rw [getElem?_mask_cons hj]
            simpa [hj, Nat.le_of_succ_le hj] using hstep
          · rw [if_neg fun h => hj h.1] at hstep
            subst hstep
            rw [if_neg]
            rintro ⟨hle, hrun⟩
            obtain rfl : j = index := by omega
            simp at hrun
      | true =>
          obtain ⟨first, others, hfirst, hrest, hsession, -⟩ := stepLanes_ok h
          rw [hsession]
          have hlane := lanesBy_stepLane hfirst
          refine hlane.trans (ih hrest) fun j l l₁ l' _ hl₁ hl' => ?_
          rw [hlane.program, hlane.analyses] at hl'
          -- a lane before this one stays, this one steps, and the rest decides on those behind it
          rcases Nat.lt_trichotomy j index with hj | rfl | hj
          · rw [if_neg (Nat.ne_of_lt hj)] at hl₁
            rw [if_neg (by omega)] at hl'
            rw [if_neg (by omega), hl', hl₁]
          · rw [if_pos rfl] at hl₁
            rw [if_neg (by omega)] at hl'
            rw [if_pos (by simp), hl']
            exact hl₁
          · rw [if_neg (Nat.ne_of_gt hj)] at hl₁
            rw [getElem?_mask_cons hj, ← hl₁]
            simpa [Nat.le_of_lt hj, Nat.succ_le_of_lt hj] using hl'

/-- A lane that comes after those that have had their turns is as it was. -/
theorem getElem?_stepLanes_take {mask : List Bool} {k : Nat}
    (h : (s.stepLanes host 0 (mask.take k)).result = .ok states) :
    (s.stepLanes host 0 (mask.take k)).session.lanes[k]? = s.lanes[k]? := by
  refine (lanesBy_stepLanes h).getElem?_eq fun {l l'} hsame => ?_
  have hlast : (mask.take k)[k]? = none := List.getElem?_eq_none (List.length_take_le k mask)
  rwa [Nat.sub_zero, hlast, if_neg fun h => Option.some_ne_none _ h.2.symm] at hsame

/-- The lanes of a range read the global variables again. -/
theorem lanesBy_refreshLanes {index count : Nat} (h : (s.refreshLanes index count).result = .ok ()) :
    LanesBy (fun j l l' =>
        if index ≤ j ∧ j < index + count then
          l.refreshGlobals s.world.memory s.bindings.globals = (.ok (), l')
        else l' = l)
      s (s.refreshLanes index count).session := by
  induction count generalizing s index with
  | zero => exact .refl (fun j l => by rw [if_neg (by omega)]) s
  | succ count ih =>
      cases hl : s.lanes[index]? with
      | none =>
          rw [refreshLanes, hl]
          refine ⟨rfl, rfl, fun j l hj => ⟨l, hj, ?_⟩⟩
          rw [if_neg]
          rintro ⟨hle, -⟩
          rw [List.getElem?_eq_none (Nat.le_trans (List.getElem?_eq_none_iff.1 hl) hle)] at hj
          cases hj
      | some l =>
          obtain ⟨l', hl', hrest⟩ := refreshLanes_ok hl h
          rw [hrest] at h ⊢
          refine LanesBy.trans (R := fun j l l' =>
            if j = index then l.refreshGlobals s.world.memory s.bindings.globals = (.ok (), l')
            else l' = l) ?_ (ih h) fun j l l₁ l' _ h₁ h₂ => ?_
          · refine .set hl rfl rfl ?_ fun j _ hj => by rw [if_neg hj]
            rw [if_pos rfl]
            exact hl'
          · exact ranged_of_ranged
              (R := fun l l' => l.refreshGlobals s.world.memory s.bindings.globals = (.ok (), l')) h₁ h₂

theorem refreshLanes_session (s : Session) (index count : Nat) : (s.refreshLanes index count).session =
    { s with lanes := (s.refreshLanes index count).session.lanes } := by
  induction count generalizing s index with
  | zero => rfl
  | succ count ih =>
      rw [refreshLanes]
      split
      · rfl
      · dsimp only
        split
        · rfl
        · exact ih _ _

/-- To read the global variables again changes nothing but lanes. -/
theorem refresh_session (s : Session) (writes : Nat) :
    (s.refresh writes).session = { s with lanes := (s.refresh writes).session.lanes } := by
  unfold refresh
  split
  · rfl
  · exact refreshLanes_session ..

/-- A round changes lanes, what they share, and how many states have been reported. -/
theorem round_session (h : (s.round host).result = .ok states) : (s.round host).session =
    { s with
      lanes := (s.round host).session.lanes
      world := (s.round host).session.world
      steps := (s.round host).session.steps } := by
  have hturn : ∀ t index states, (∃ lanes world steps, t = { s with lanes, world, steps }) →
      (t.stepLane host index).result = .ok states →
      ∃ lanes world steps, (t.stepLane host index).session = { s with lanes, world, steps } := by
    rintro t index states ⟨lanes, world, steps, rfl⟩ hok
    cases hl : lanes[index]? with
    | none =>
        rw [stepLane_of_none hl]
        exact ⟨_, _, _, rfl⟩
    | some l =>
        obtain ⟨state, -, hsession, -⟩ := stepLane_ok hl hok
        rw [hsession]
        exact ⟨_, _, _, rfl⟩
  obtain ⟨hstepped, -, hsession⟩ := round_ok h
  obtain ⟨lanes, world, steps, hturns⟩ := stepLanes_induction ⟨_, _, _, rfl⟩ hturn hstepped
  rw [hsession, skipNops, refresh_session, hturns]

theorem lanesBy_refresh {writes : Nat} (h : (s.refresh writes).result = .ok ()) :
    LanesBy (fun _ => Lane.Refreshing s.bindings.globals) s (s.refresh writes).session := by
  unfold refresh at h ⊢
  split
  · exact .refl (fun _ _ => .refl) s
  · next hwrites =>
      rw [if_neg hwrites] at h
      refine (lanesBy_refreshLanes h).imp fun j l l' hl' => ?_
      split at hl'
      · exact .single ⟨s.world.memory, hl'⟩
      · exact hl' ▸ .refl

/-- The lanes that a mask allows move past markers. -/
theorem lanesBy_skipNops (mask : List Bool) :
    LanesBy (fun j l l' => l' = if mask[j]? = some true then l.skipNops s.program else l)
      s (s.skipNops mask) := by
  refine ⟨rfl, by simp [skipNops], ?_⟩
  intro j l' hl'
  simp only [skipNops, List.getElem?_mapIdx, Option.map_eq_some_iff] at hl'
  obtain ⟨l, hl, rfl⟩ := hl'
  refine ⟨l, hl, ?_⟩
  cases mask[j]? with
  | none => rfl
  | some runs => cases runs <;> rfl

/-- A round gives each lane that the mask allows one step and lets it move past markers. Any lane may
    read the global variables again. -/
theorem lanes_of_round (h : (s.round host).result = .ok states) :
    LanesBy (fun j l l' =>
        if s.mask[j]? = some true then
          ∃ l₁ l₂, Lane.Stepping s.program s.analyses l l₁ ∧
            Lane.Refreshing s.bindings.globals l₁ l₂ ∧ l' = l₂.skipNops s.program
        else Lane.Refreshing s.bindings.globals l l')
      s (s.round host).session := by
  obtain ⟨hstepped, hrefreshed, hsession⟩ := round_ok h
  rw [hsession]
  have hstep := lanesBy_stepLanes hstepped
  have hrefresh := lanesBy_refresh hrefreshed
  -- a lane that did not step may still have read the global variables
  have hboth := hstep.trans hrefresh
    (T := fun j l l₂ => ∃ l₁,
      (if s.mask[j]? = some true then Lane.Stepping s.program s.analyses l l₁ else l₁ = l) ∧
        Lane.Refreshing s.bindings.globals l₁ l₂)
    fun j l l₁ l₂ _ h₁ h₂ => ⟨l₁, by simpa using h₁, hstep.bindings ▸ h₂⟩
  refine hboth.trans (lanesBy_skipNops s.mask) fun j l l₂ l' _ h₁₂ h₃ => ?_
  obtain ⟨l₁, h₁, h₂⟩ := h₁₂
  rw [hboth.program] at h₃
  split
  · next hj =>
      rw [if_pos hj] at h₁ h₃
      exact ⟨l₁, l₂, h₁, h₂, h₃⟩
  · next hj =>
      rw [if_neg hj] at h₁ h₃
      rwa [h₃, ← h₁]

/-- A lane that has finished stays so. -/
theorem isFinished_of_lane (h : (s.round host).result = .ok states) {j : Nat} {l l' : Lane}
    (hl : s.lanes[j]? = some l) (hl' : (s.round host).session.lanes[j]? = some l')
    (hfin : l.isFinished) : l'.isFinished := by
  obtain ⟨l₀, hl₀, hround⟩ := (lanes_of_round h).lane j l' hl'
  obtain rfl : l = l₀ := Option.some.inj (hl.symm.trans hl₀)
  split at hround
  · obtain ⟨l₁, l₂, ⟨setting, w, state, -, -, -, rfl⟩, hrefresh, rfl⟩ := hround
    rw [Lane.step_of_isFinished hfin] at hrefresh
    rw [Lane.isFinished_skipNops, Lane.isFinished_of_place (Lane.place_of_frame hrefresh.frame_eq)]
    exact hfin
  · rw [Lane.isFinished_of_place (Lane.place_of_frame hround.frame_eq)]
    exact hfin

/-! ## Reached states -/

/-- Entering gives every lane in turn what it is entered with. -/
theorem lanesBy_enterLanes {index count : Nat} (h : (s.enterLanes index count).result = .ok ()) :
    LanesBy (fun j l l' =>
        if index ≤ j ∧ j < index + count then
          l.enter s.program s.bindings s.analyses s.liveGlobals = (.ok (), l')
        else l' = l)
      s (s.enterLanes index count).session := by
  induction count generalizing s index with
  | zero => exact .refl (fun j l => by rw [if_neg (by omega)]) s
  | succ count ih =>
      rw [enterLanes] at h ⊢
      split at h
      · next hnone =>
          refine ⟨rfl, rfl, fun j l hl => ⟨l, hl, ?_⟩⟩
          rw [if_neg]
          rintro ⟨hle, -⟩
          rw [List.getElem?_eq_none (Nat.le_trans (List.getElem?_eq_none_iff.1 hnone) hle)] at hl
          cases hl
      · next l hl =>
          dsimp only at h ⊢
          split at h
          · cases h
          · next hresult =>
              refine LanesBy.trans (R := fun j l l' =>
                if j = index then l.enter s.program s.bindings s.analyses s.liveGlobals = (.ok (), l')
                else l' = l) ?_ (ih h) fun j l l₁ l' _ h₁ h₂ => ?_
              · refine .set hl rfl rfl ?_ fun j _ hj => by rw [if_neg hj]
                rw [if_pos rfl]
                exact Prod.ext hresult rfl
              · exact ranged_of_ranged
                  (R := fun l l' => l.enter s.program s.bindings s.analyses s.liveGlobals = (.ok (), l'))
                  h₁ h₂

/-- A session that has been started has entered the program with all of its lanes. -/
theorem lanesBy_start (h : s.start.result = .ok states) :
    LanesBy (fun _ l l' => l.enter s.program s.bindings s.analyses s.liveGlobals = (.ok (), l'))
      s s.start.session := by
  unfold start at h ⊢
  dsimp only at h ⊢
  split at h
  · cases h
  · next hentered =>
      obtain ⟨hsetup, hlength, hlane⟩ := lanesBy_enterLanes hentered
      refine ⟨hsetup, hlength, ?_⟩
      intro j l' hl'
      obtain ⟨l, hl, henter⟩ := hlane j l' hl'
      refine ⟨l, hl, ?_⟩
      have hj : j < s.lanes.length := (List.getElem?_eq_some_iff.1 hl).1
      rwa [if_pos (by omega)] at henter

/-- Entering changes nothing but lanes. -/
theorem enterLanes_session (s : Session) (index count : Nat) :
    (s.enterLanes index count).session =
      { s with lanes := (s.enterLanes index count).session.lanes } := by
  induction count generalizing s index with
  | zero => rfl
  | succ count ih =>
      rw [enterLanes]
      split
      · rfl
      · dsimp only
        split
        · rfl
        · exact ih _ _

/-- What starting leaves of a session and reports. -/
theorem start_ok (h : s.start.result = .ok states) :
    s.start.session =
        { s with lanes := s.start.session.lanes, steps := s.steps + 1, isStarted := true } ∧
      states = s.start.session.activeLane?.toList.map fun l =>
        { l.initialState s.bindings with index := s.steps } := by
  have hentered := enterLanes_session { s with isStarted := true } 0 s.lanes.length
  unfold start at h ⊢
  dsimp only at h ⊢
  split at h
  · cases h
  · cases h
    dsimp only
    rw [hentered]
    exact ⟨rfl, rfl⟩

/-- What setting up a session decides. -/
structure Fresh (p : Program) (s : Session) : Prop where
  program : s.program = p
  analyses : FunctionAnalysis.ofProgram p = .ok s.analyses
  lane : ∀ j l, s.lanes[j]? = some l → ∃ init, l = Lane.new j p init
  nonempty : s.lanes ≠ []

/-- Each lane of a session that has been started is a new one that has entered the program. -/
theorem Fresh.enter_of_start {p : Program} (hfresh : Fresh p s) (h : s.start.result = .ok states) {l : Lane}
    (hl : l ∈ s.start.session.lanes) : ∃ index init,
      (Lane.new index p init).enter p s.bindings s.analyses s.liveGlobals = (.ok (), l) := by
  obtain ⟨j, hj⟩ := List.getElem?_of_mem hl
  obtain ⟨l₀, hl₀, henter⟩ := (lanesBy_start h).lane j l hj
  obtain ⟨init, rfl⟩ := hfresh.lane j l₀ hl₀
  rw [hfresh.program] at henter
  exact ⟨j, init, henter⟩

/-- What setting up a session is put together from. -/
theorem new_ok {p : Program} {b : Bindings} {w : World} {inits : List LaneInit} {active : Nat}
    {config : Config} (h : Session.new p b w inits active config = .ok s) :
    active < inits.length ∧ ∃ analyses bindings liveGlobals world,
      FunctionAnalysis.ofProgram p = .ok analyses ∧
      allocateGlobals b (Array.replicate p.idCount false) w p.globals =
        .ok (bindings, liveGlobals, world) ∧
      s = { program := p, bindings, analyses, liveGlobals
            lanes := inits.mapIdx fun i init => Lane.new i p init
            active, config, world } := by
  unfold Session.new at h
  dsimp only at h
  split at h
  · cases h
  · next hactive =>
      obtain ⟨analyses, hanalyses, h⟩ := ok_of_bind h
      obtain ⟨⟨bindings, liveGlobals, world⟩, hglobals, h⟩ := ok_of_bind h
      cases h
      exact ⟨Nat.lt_of_not_le hactive, _, _, _, _, hanalyses, hglobals, rfl⟩

theorem fresh_of_new {p : Program} {b : Bindings} {w : World} {inits : List LaneInit}
    {active : Nat} {config : Config} (h : Session.new p b w inits active config = .ok s) :
    Fresh p s := by
  obtain ⟨hactive, as, b', live, w', has, -, rfl⟩ := new_ok h
  refine ⟨rfl, has, ?_, ?_⟩
  · intro j l hl
    rw [List.getElem?_mapIdx, Option.map_eq_some_iff] at hl
    obtain ⟨init, -, rfl⟩ := hl
    exact ⟨init, rfl⟩
  · intro hnil
    have hlength : inits.length = 0 := by simpa using congrArg List.length hnil
    omega

/-- Rounds succeed that are to stop where they are, or that go on with a round that succeeds. -/
theorem runUntil_ok {stop n : Nat} {acc : Array StepState} {done : Progress (List StepState)}
    (hrun : runUntil host stop (n + 1) s acc = some done) (hok : done.result = .ok states) :
    (stop ≤ s.steps ∨ s.isFinished) ∧ done.session = s ∧ states = acc.toList ∨
      ¬ (stop ≤ s.steps ∨ s.isFinished) ∧ s.config.maxTotalSteps.filter (·.toNat ≤ s.steps) = none ∧
        ∃ more, (s.round host).result = .ok more ∧
          runUntil host stop n (s.round host).session (acc.append more.toArray) = some done := by
  rw [runUntil] at hrun
  split at hrun
  · next hstop =>
      cases hrun
      cases hok
      exact .inl ⟨hstop, rfl, rfl⟩
  · next hstop =>
      split at hrun
      · cases hrun
        cases hok
      · next hlimit =>
          dsimp only at hrun
          split at hrun
          · cases hrun
            cases hok
          · next more hround => exact .inr ⟨hstop, hlimit, more, hround, hrun⟩

/-- A call succeeds when the session has not been terminated and running on succeeds. -/
theorem resume_ok {rounds : Nat} {done : Progress (List StepState)} :
    s.resume host rounds = some done ∧ done.result = .ok states ↔
      ¬ s.isTerminated ∧ s.run host rounds = some done ∧ done.result = .ok states := by
  unfold resume
  split
  · next hterminated =>
      refine ⟨fun ⟨h, hok⟩ => ?_, fun h => absurd hterminated h.1⟩
      cases h
      cases hok
  · next hterminated =>
      refine ⟨fun ⟨h, hok⟩ => ?_, fun ⟨_, h, hok⟩ => ⟨?_, hok⟩⟩
      · obtain ⟨done', hrun, hdone⟩ := Option.map_eq_some_iff.1 h
        split at hdone
        · subst hdone
          exact ⟨hterminated, hrun, hok⟩
        · next hfault =>
            subst hdone
            rw [hfault] at hok
            cases hok
      · rw [h, Option.map_some]
        dsimp only
        rw [hok]

/-- The states of a session between two rounds: after it has been started, and after each round that
    succeeds, whatever the host is. -/
inductive Reached (s₀ : Session) : Session → Prop
  | started {states : List StepState} (h : s₀.start.result = .ok states) :
      Reached s₀ s₀.start.session
  | round {s : Session} {host : Host} {states : List StepState} (hs : Reached s₀ s)
      (h : (s.round host).result = .ok states) : Reached s₀ (s.round host).session

/-- The session after a number of rounds, or the fault of the first that fails. -/
def advance (s : Session) (host : Host) : (rounds : Nat) → Except Fault Session
  | 0 => .ok s
  | n + 1 =>
    match (s.round host).result with
    | .error fault => .error fault
    | .ok _ => (s.round host).session.advance host n

theorem advance_succ {s' : Session} {n : Nat} :
    s.advance host (n + 1) = .ok s' ↔
      ∃ states, (s.round host).result = .ok states ∧ (s.round host).session.advance host n = .ok s' := by
  rw [advance]
  split
  · next fault hfault => simp [hfault]
  · next states hok => simp [hok]

theorem advance_add {s' : Session} {n : Nat} (h : s.advance host n = .ok s') (m : Nat) :
    s.advance host (n + m) = s'.advance host m := by
  induction n generalizing s with
  | zero =>
      cases h
      rw [Nat.zero_add]
  | succ n ih =>
      obtain ⟨states, hok, h⟩ := advance_succ.1 h
      rw [Nat.add_right_comm, advance, hok]
      exact ih h

/-- What holds of a session and is kept by each round that succeeds holds after any number. -/
theorem advance_induction {P : Session → Prop} {s' : Session} {n : Nat}
    (h : s.advance host n = .ok s') (hs : P s)
    (hround : ∀ t states, P t → (t.round host).result = .ok states → P (t.round host).session) :
    P s' := by
  induction n generalizing s with
  | zero =>
      cases h
      exact hs
  | succ n ih =>
      obtain ⟨states, hok, h⟩ := advance_succ.1 h
      exact ih h (hround s states hs hok)

/-- The function that is entered has been analysed. -/
theorem Fresh.enters {p : Program} {s₀ : Session} {a : FunctionAnalysis} (hfresh : Fresh p s₀)
    (ha : s₀.analyses.of? p.entry = some a) : ∃ f, p.Enters s₀.analyses f a := by
  obtain ⟨offset, hoffset⟩ := FunctionAnalysis.ofFunction_of_ofProgram hfresh.analyses ha
  obtain ⟨f, hf, hdescribes⟩ := FunctionAnalysis.describes_of_ofFunction hoffset
  exact ⟨f, hf, ha, hdescribes⟩

namespace Reached

variable {p : Program} {s₀ : Session}

theorem advance {s' : Session} {n : Nat} (hs : Reached s₀ s) (h : s.advance host n = .ok s') :
    Reached s₀ s' :=
  advance_induction h hs fun _ _ ht hok => ht.round hok

theorem setup_eq (h : Reached s₀ s) : s.setup = s₀.setup := by
  induction h with
  | started h => exact (lanesBy_start h).setup
  | round _ h ih => exact (lanes_of_round h).setup.trans ih

theorem length_eq (h : Reached s₀ s) : s.lanes.length = s₀.lanes.length := by
  induction h with
  | started h => exact (lanesBy_start h).length
  | round _ h ih => exact (lanes_of_round h).length.trans ih

theorem program_eq (h : Reached s₀ s) : s.program = s₀.program := program_of_setup h.setup_eq

theorem bindings_eq (h : Reached s₀ s) : s.bindings = s₀.bindings := bindings_of_setup h.setup_eq

theorem analyses_eq (h : Reached s₀ s) : s.analyses = s₀.analyses := analyses_of_setup h.setup_eq

/-- A session that has been started has a function that it enters, and the analysis of it. -/
theorem enters (hfresh : Fresh p s₀) (h : Reached s₀ s) : ∃ f a, p.Enters s₀.analyses f a := by
  obtain ⟨a, ha⟩ : ∃ a, s₀.analyses.of? p.entry = some a := by
    induction h with
    | started h =>
        obtain ⟨l, hl⟩ := List.exists_mem_of_length_pos
          (l := s₀.start.session.lanes) (by
            rw [(lanesBy_start h).length]
            exact List.length_pos_iff.2 hfresh.nonempty)
        obtain ⟨index, init, henter⟩ := hfresh.enter_of_start h hl
        obtain ⟨a, -, ha, -⟩ := Lane.place_of_enter henter
        exact ⟨a, ha⟩
    | round _ _ ih => exact ih
  obtain ⟨f, he⟩ := hfresh.enters ha
  exact ⟨f, a, he⟩

/-- The lanes of a session are runs of single lanes. -/
theorem run (hfresh : Fresh p s₀) (h : Reached s₀ s) {l : Lane} (hl : l ∈ s.lanes) :
    l.Run p s₀.bindings s₀.analyses s₀.liveGlobals := by
  induction h generalizing l with
  | started h =>
      obtain ⟨index, init, henter⟩ := hfresh.enter_of_start h hl
      exact .entered henter
  | @round s host states hs h ih =>
      obtain ⟨j, hj⟩ := List.getElem?_of_mem hl
      obtain ⟨l₀, hl₀, hround⟩ := (lanes_of_round h).lane j l hj
      have hl₀ := ih (List.mem_of_getElem? hl₀)
      rw [hs.program_eq, hs.analyses_eq, hs.bindings_eq, hfresh.program] at hround
      split at hround
      · obtain ⟨l₁, l₂, ⟨setting, w, state, hp, has, hok, rfl⟩, hrefresh, rfl⟩ := hround
        exact .skipped (hrefresh.run (.stepped hl₀ hp has hok))
      · exact hround.run hl₀

/-- A call that goes on from a reached state goes through reached states. -/
theorem of_runUntil {host : Host} {stop rounds : Nat} {acc : Array StepState}
    {done : Progress (List StepState)} (h : Reached s₀ s)
    (hrun : runUntil host stop rounds s acc = some done) (hok : done.result = .ok states) :
    Reached s₀ done.session := by
  induction rounds generalizing s acc with
  | zero => cases hrun
  | succ rounds ih =>
      rcases runUntil_ok hrun hok with ⟨-, hsession, -⟩ | ⟨-, -, more, hround, hrun⟩
      · rwa [hsession]
      · exact ih (h.round hround) hrun

/-- So does each call of a session, the first one and those that go on from a reached state. -/
theorem of_resume {host : Host} {rounds : Nat} {done : Progress (List StepState)}
    (h : if s.isStarted then Reached s₀ s else s = s₀) (hrun : s.resume host rounds = some done)
    (hok : done.result = .ok states) : Reached s₀ done.session := by
  obtain ⟨-, hrun⟩ := resume_ok.1 ⟨hrun, hok⟩
  unfold Session.run at hrun
  split at hrun
  · next hstarted =>
      rw [if_pos hstarted] at h
      exact h.of_runUntil hrun.1 hok
  · next hstarted =>
      rw [if_neg hstarted] at h
      cases hrun.1
      subst h
      exact .started hok

end Reached

/-- The sessions after calls that have all succeeded, whatever the host of each was. -/
inductive Continued (s₀ : Session) : Session → Prop
  | first {host : Host} {rounds : Nat} {done : Progress (List StepState)} {states : List StepState}
      (h : s₀.resume host rounds = some done) (hok : done.result = .ok states) :
      Continued s₀ done.session
  | next {s : Session} {host : Host} {rounds : Nat} {done : Progress (List StepState)}
      {states : List StepState} (hs : Continued s₀ s) (h : s.resume host rounds = some done)
      (hok : done.result = .ok states) : Continued s₀ done.session

namespace Reached

theorem isStarted {s₀ : Session} (h : Reached s₀ s) : s.isStarted := by
  induction h with
  | started h => rw [(start_ok h).1]
  | round _ h ih =>
      rw [round_session h]
      exact ih

end Reached

/-- Calls lead to states between two rounds. -/
theorem Continued.reached {s₀ : Session} (hfresh : ¬ s₀.isStarted) (h : Continued s₀ s) :
    Reached s₀ s := by
  induction h with
  | first h hok => exact .of_resume (by rw [if_neg hfresh]) h hok
  | next _ h hok ih => exact .of_resume (by rwa [if_pos ih.isStarted]) h hok

/-- A session after a number of calls that have all succeeded, and the states that they returned. -/
inductive Resumed (host : Host) (s₀ : Session) : Nat → Session → List StepState → Prop
  | fresh : Resumed host s₀ 0 s₀ []
  | resume {n rounds : Nat} {s : Session} {states more : List StepState}
      {done : Progress (List StepState)} (hs : Resumed host s₀ n s states)
      (h : s.resume host rounds = some done) (hok : done.result = .ok more) :
      Resumed host s₀ (n + 1) done.session (states ++ more)

end Session

end Lockstep
