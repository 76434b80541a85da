import Lockstep.Host.Unbound
import Lockstep.Proofs.Lane.Apart
import Lockstep.Proofs.Session.Mask
import Lockstep.Proofs.Session.Rounds

set_option autoImplicit false

/-! # The reporting lane alone

Lanes that have nothing to do with each other do not notice that they run in lockstep: the session of
the reporting lane alone returns the same states, call by call (`Session.lockstep_is_invisible`). A
round in which the reporting lane waits has no counterpart in that session. -/

namespace Lockstep

namespace Session

variable {s s' : Session} {host : Host} {w₀ : World} {states : List StepState}

/-- A session whose lanes are independent, and the session of its reporting lane alone. -/
structure Alone (host : Host) (w₀ : World) (s s' : Session) : Prop where
  independent : s.program.Independent w₀.memory
  setup : s'.setup = { s.setup with active := 0 }
  steps : s'.steps = s.steps
  isStarted : s'.isStarted = s.isStarted
  isTerminated : s'.isTerminated = s.isTerminated
  lane : ∃ l, s.activeLane? = some l ∧ s'.lanes = [l.renumbered 0]
  own : ∀ l ∈ s.lanes, l.memory.Private s.program w₀.memory
  world : w₀.Same host s.world
  world' : w₀.Same host s'.world

/-- The turn of a lane whose step succeeds. -/
theorem stepLane_of_ok {index : Nat} {l : Lane} {state : StepState} (hl : s.lanes[index]? = some l)
    (hstate : (l.step (s.setting host index) s.world).result = .ok state) :
    s.stepLane host index =
      { session := { s.update index (l.step (s.setting host index) s.world) with
          steps := s.steps + if index = s.active then 1 else 0 }
        result := .ok (if index = s.active then [{ state with index := s.steps }] else []) } := by
  unfold stepLane
  rw [hl]
  dsimp only
  rw [hstate]
  dsimp only [update]
  split
  · next hactive => exact if_pos hactive
  · next hactive => exact if_neg hactive

namespace Alone

theorem program (h : Alone host w₀ s s') : s'.program = s.program :=
  (congrArg Session.program h.setup :)

theorem bindings (h : Alone host w₀ s s') : s'.bindings = s.bindings :=
  (congrArg Session.bindings h.setup :)

theorem analyses (h : Alone host w₀ s s') : s'.analyses = s.analyses :=
  (congrArg Session.analyses h.setup :)

theorem liveGlobals (h : Alone host w₀ s s') : s'.liveGlobals = s.liveGlobals :=
  (congrArg Session.liveGlobals h.setup :)

theorem active (h : Alone host w₀ s s') : s'.active = 0 :=
  (congrArg Session.active h.setup :)

theorem config (h : Alone host w₀ s s') : s'.config = s.config :=
  (congrArg Session.config h.setup :)

theorem isFinished (h : Alone host w₀ s s') : s'.isFinished = s.isFinished := by
  obtain ⟨l, hl, hl'⟩ := h.lane
  unfold Session.isFinished
  rw [hl, activeLane?, hl', h.active]
  rfl

/-! ## Rounds -/

/-- A lane that does not report takes its turn. -/
theorem stepLane_other (h : Alone host w₀ s s') (hpure : host.IsPure) {index : Nat}
    (hne : index ≠ s.active) (hok : (s.stepLane host index).result = .ok states) :
    states = [] ∧ Alone host w₀ (s.stepLane host index).session s' := by
  cases hl : s.lanes[index]? with
  | none =>
      rw [stepLane_of_none hl] at hok ⊢
      cases hok
      exact ⟨rfl, h⟩
  | some l =>
      obtain ⟨state, hstate, hsession, rfl⟩ := stepLane_ok hl hok
      have halike : (s.setting host index).Alike (s.setting host index) := ⟨rfl, rfl, rfl, rfl, rfl⟩
      obtain ⟨-, -, hworld, -, hown⟩ := Lane.apart_of_step (k := l.index) halike hpure h.independent
        h.world h.world (h.own l (List.mem_of_getElem? hl)) hstate
      rw [hsession, if_neg hne, if_neg hne]
      obtain ⟨l₀, hl₀, hlanes⟩ := h.lane
      refine ⟨rfl, h.independent, h.setup, h.steps, h.isStarted, h.isTerminated, ⟨l₀, ?_, hlanes⟩, ?_,
        hworld, h.world'⟩
      · exact (List.getElem?_set_ne hne).trans hl₀
      · intro l' hl'
        rcases List.mem_or_eq_of_mem_set hl' with hl' | rfl
        · exact h.own l' hl'
        · exact hown

/-- The reporting lane takes its turn in both sessions. -/
theorem stepLane_active (h : Alone host w₀ s s') (hpure : host.IsPure)
    (hok : (s.stepLane host s.active).result = .ok states) :
    (s'.stepLane host 0).result = .ok states ∧
      Alone host w₀ (s.stepLane host s.active).session (s'.stepLane host 0).session := by
  obtain ⟨l, hl, hlanes⟩ := h.lane
  obtain ⟨state, hstate, hsession, rfl⟩ := stepLane_ok hl hok
  have halike : (s.setting host s.active).Alike (s'.setting host 0) := by
    refine ⟨h.program, h.bindings, h.analyses, rfl, ?_⟩
    show (0 == s'.active) = (s.active == s.active)
    rw [h.active, beq_self_eq_true, beq_self_eq_true]
  obtain ⟨hstate', hlane, hworld, hworld', hown⟩ := Lane.apart_of_step (k := 0) halike hpure
    h.independent h.world h.world' (h.own l (List.mem_of_getElem? hl)) hstate
  have hl' : s'.lanes[0]? = some (l.renumbered 0) := by
    rw [hlanes]
    rfl
  have hstep := stepLane_of_ok hl' hstate'
  rw [hsession, hstep, if_pos rfl, if_pos rfl, if_pos h.active.symm, if_pos h.active.symm, h.steps]
  refine ⟨rfl, h.independent, h.setup, rfl, h.isStarted, h.isTerminated,
    ⟨(l.step (s.setting host s.active) s.world).lane, ?_, ?_⟩, ?_, hworld, hworld'⟩
  · exact List.getElem?_set_self (List.getElem?_eq_some_iff.1 hl).1
  · show s'.lanes.set 0 _ = _
    rw [hlanes, hlane]
    rfl
  · intro l' hl'
    rcases List.mem_or_eq_of_mem_set hl' with hl' | rfl
    · exact h.own l' hl'
    · exact hown

/-- The lanes of a mask take their turns. -/
theorem stepLanes (h : Alone host w₀ s s') (hpure : host.IsPure) {index : Nat} {mask : List Bool}
    (hok : (s.stepLanes host index mask).result = .ok states) :
    if index ≤ s.active ∧ mask[s.active - index]? = some true then
      (s'.stepLane host 0).result = .ok states ∧
        Alone host w₀ (s.stepLanes host index mask).session (s'.stepLane host 0).session
    else states = [] ∧ Alone host w₀ (s.stepLanes host index mask).session s' := by
  induction mask generalizing s s' index states with
  | nil =>
      cases hok
      rw [if_neg (by simp)]
      exact ⟨rfl, h⟩
  | cons runs rest ih =>
      cases runs with
      | false =>
          rw [Session.stepLanes] at hok ⊢
          have hrest := ih h hok
          by_cases hle : index + 1 ≤ s.active
          · simpa [getElem?_mask_cons hle, hle, Nat.le_of_succ_le hle] using hrest
          · rw [if_neg fun h => hle h.1] at hrest
            rw [if_neg]
            · exact hrest
            · rintro ⟨hle', hrun⟩
              rw [show s.active - index = 0 by omega] at hrun
              cases hrun
      | true =>
          obtain ⟨first, others, hfirst, hothers, hsession, rfl⟩ := stepLanes_ok hok
          have hactive : (s.stepLane host index).session.active = s.active :=
            (lanesBy_stepLane hfirst).active
          rw [hsession]
          by_cases hidx : index = s.active
          · subst hidx
            -- the lanes behind the reporting one give nothing more
            obtain ⟨hfirst', hstepped⟩ := h.stepLane_active hpure hfirst
            have hrest := ih hstepped hothers
            rw [if_neg (by omega)] at hrest
            rw [if_pos (by simp), hrest.1, List.append_nil]
            exact ⟨hfirst', hrest.2⟩
          · obtain ⟨rfl, hstepped⟩ := h.stepLane_other hpure hidx hfirst
            have hrest := ih hstepped hothers
            rw [hactive] at hrest
            by_cases hle : index + 1 ≤ s.active
            · simpa [getElem?_mask_cons hle, hle, Nat.le_of_succ_le hle] using hrest
            · rw [if_neg fun h => hle h.1] at hrest
              rw [if_neg (by omega)]
              exact hrest

theorem refresh (h : Alone host w₀ s s') : s.refresh w₀.memory.writes = { session := s, result := .ok () } ∧
    s'.refresh w₀.memory.writes = { session := s', result := .ok () } :=
  ⟨if_pos (congrArg Memory.writes h.world.memory), if_pos (congrArg Memory.writes h.world'.memory)⟩

/-- The reporting lane and others move past markers. -/
theorem skipNops (h : Alone host w₀ s s') (mask : List Bool) :
    if mask[s.active]? = some true then Alone host w₀ (s.skipNops mask) (s'.skipNops [true])
    else Alone host w₀ (s.skipNops mask) s' := by
  obtain ⟨l, hl, hlanes⟩ := h.lane
  have hown : ∀ l ∈ (s.skipNops mask).lanes, l.memory.Private s.program w₀.memory := by
    intro l' hl'
    obtain ⟨j, hj⟩ := List.getElem?_of_mem hl'
    obtain ⟨l, hl, rfl⟩ := (lanesBy_skipNops mask).lane j l' hj
    split
    · rw [Lane.memory_skipNops]
      exact h.own l (List.mem_of_getElem? hl)
    · exact h.own l (List.mem_of_getElem? hl)
  have hactive : (s.skipNops mask).activeLane? =
      some (if mask[s.active]? = some true then l.skipNops s.program else l) := by
    unfold activeLane? Session.skipNops
    rw [List.getElem?_mapIdx, show s.lanes[s.active]? = some l from hl]
    cases mask[s.active]? with
    | none => rfl
    | some runs => cases runs <;> rfl
  split
  · next hrun =>
      rw [if_pos hrun] at hactive
      refine ⟨h.independent, h.setup, h.steps, h.isStarted, h.isTerminated, ⟨_, hactive, ?_⟩, hown,
        h.world, h.world'⟩
      rw [← Lane.skipNops_renumbered, ← h.program, Session.skipNops, hlanes]
      rfl
  · next hrun =>
      rw [if_neg hrun] at hactive
      exact ⟨h.independent, h.setup, h.steps, h.isStarted, h.isTerminated, ⟨_, hactive, hlanes⟩, hown,
        h.world, h.world'⟩

/-- A lane that runs alone never waits. -/
theorem mask_eq (h : Alone host w₀ s s') (hrun : ¬ s.isFinished) : s'.mask = [true] := by
  obtain ⟨l, hl, hlanes⟩ := h.lane
  obtain ⟨l', hl', hfin⟩ := isFinished_iff.1 hrun
  obtain rfl := Option.some.inj (hl.symm.trans hl')
  rw [mask_of_alone hlanes, show (l.renumbered 0).isFinished = l.isFinished from rfl]
  simpa using hfin

/-- A round in which the reporting lane runs is one of the lane alone, and any other does nothing to
    it. -/
theorem round (h : Alone host w₀ s s') (hpure : host.IsPure) (hrun : ¬ s.isFinished)
    (hok : (s.round host).result = .ok states) :
    ((s'.round host).result = .ok states ∧
        Alone host w₀ (s.round host).session (s'.round host).session) ∨
      (states = [] ∧ Alone host w₀ (s.round host).session s') := by
  obtain ⟨hstepped, -, hsession⟩ := round_ok hok
  have hlanes := h.stepLanes hpure hstepped
  have hactive := (lanesBy_stepLanes hstepped).active
  rw [h.world.memory] at hsession
  by_cases hmask : s.mask[s.active]? = some true
  · left
    rw [if_pos ⟨Nat.zero_le _, hmask⟩] at hlanes
    obtain ⟨hresult, hlanes⟩ := hlanes
    have hskipped := hlanes.skipNops s.mask
    rw [hactive, if_pos hmask] at hskipped
    rw [hlanes.refresh.1] at hsession
    have hstepped' : s'.stepLanes host 0 [true] =
        { session := (s'.stepLane host 0).session, result := .ok states } := by
      simp [Session.stepLanes, hresult, Except.map]
    have hround : s'.round host =
        { session := (s'.stepLane host 0).session.skipNops [true], result := .ok states } := by
      unfold Session.round
      rw [h.mask_eq hrun]
      dsimp only
      rw [hstepped']
      dsimp only
      rw [h.world'.memory, hlanes.refresh.2]
    rw [hround, hsession]
    exact ⟨rfl, hskipped⟩
  · right
    rw [if_neg fun h => hmask h.2] at hlanes
    obtain ⟨rfl, hlanes⟩ := hlanes
    have hskipped := hlanes.skipNops s.mask
    rw [hactive, if_neg hmask] at hskipped
    rw [hlanes.refresh.1] at hsession
    rw [hsession]
    exact ⟨rfl, hskipped⟩

/-! ## Calls -/

theorem runUntil (h : Alone host w₀ s s') (hpure : host.IsPure) {stop rounds : Nat}
    {acc : Array StepState} {done : Progress (List StepState)}
    (hrun : runUntil host stop rounds s acc = some done) (hok : done.result = .ok states) :
    ∃ rounds' done', Session.runUntil host stop rounds' s' acc = some done' ∧
      done'.result = .ok states ∧ Alone host w₀ done.session done'.session := by
  induction rounds generalizing s s' acc with
  | zero => cases hrun
  | succ n ih =>
      rcases runUntil_ok hrun hok with ⟨hstop, hsession, rfl⟩ | ⟨hstop, hlimit, more, hround, hrun⟩
      · refine ⟨1, { session := s', result := .ok acc.toList }, ?_, rfl, hsession ▸ h⟩
        rw [Session.runUntil, if_pos (by rwa [h.steps, h.isFinished])]
      · rcases h.round hpure (not_or.1 hstop).2 hround with ⟨hround', h'⟩ | ⟨rfl, h'⟩
        · obtain ⟨n', done', hrun', hdone'⟩ := ih h' hrun
          refine ⟨n' + 1, done', ?_, hdone'⟩
          rw [Session.runUntil, if_neg (by rwa [h.steps, h.isFinished]), h.config, h.steps, hlimit]
          dsimp only
          rw [hround']
          exact hrun'
        · refine ih h' ?_
          simpa using hrun

/-- Entering the program does the same in both sessions. -/
theorem start (h : Alone host w₀ s s') (hok : s.start.result = .ok states) :
    s'.start.result = .ok states ∧ Alone host w₀ s.start.session s'.start.session := by
  obtain ⟨hsession, hstates⟩ := start_ok hok
  have hlanes := lanesBy_start hok
  obtain ⟨l₀, hl₀, hlane⟩ := h.lane
  obtain ⟨l, hl⟩ : ∃ l, s.start.session.activeLane? = some l := by
    refine ⟨_, List.getElem?_eq_getElem ?_⟩
    rw [hlanes.active, hlanes.length]
    exact (List.getElem?_eq_some_iff.1 hl₀).1
  obtain ⟨l₁, hl₁, henter⟩ := hlanes.lane _ l hl
  rw [hlanes.active] at hl₁
  obtain rfl := Option.some.inj (hl₁.symm.trans hl₀)
  have henter' := Lane.enter_renumbered henter 0
  rw [← h.program, ← h.bindings, ← h.analyses, ← h.liveGlobals] at henter'
  have hentered : enterLanes { s' with isStarted := true } 0 s'.lanes.length =
      { session := { s' with isStarted := true, lanes := [l.renumbered 0] }
        result := .ok () } := by
    rw [hlane, List.length_singleton, enterLanes]
    simp only [List.getElem?_cons_zero, henter', enterLanes, List.set_cons_zero]
  have hstart' : s'.start =
      { session := { s' with
          isStarted := true, lanes := [l.renumbered 0]
          steps := s'.steps + 1 }
        result := .ok states } := by
    unfold Session.start
    rw [hentered]
    dsimp only
    rw [show ∀ s : Session, s.activeLane? = s.lanes[s.active]? from fun _ => rfl]
    dsimp only
    rw [h.active, h.bindings, h.steps, hstates, hl]
    rfl
  rw [hstart']
  refine ⟨rfl, ?_, ?_, ?_, ?_, ?_, ⟨l, hl, rfl⟩, ?_, ?_, h.world'⟩
  · rw [hlanes.program]
    exact h.independent
  · rw [hlanes.setup]
    exact h.setup
  · rw [hsession, ← h.steps]
  · rw [hsession]
  · rw [hsession]
    exact h.isTerminated
  · intro l hl
    obtain ⟨j, hj⟩ := List.getElem?_of_mem hl
    obtain ⟨l₀, hl₀, henter⟩ := hlanes.lane j l hj
    rw [hlanes.program, (Lane.memory_of_enter henter).2]
    exact h.own l₀ (List.mem_of_getElem? hl₀)
  · rw [hsession]
    exact h.world

theorem resume (h : Alone host w₀ s s') (hpure : host.IsPure) {rounds : Nat}
    {done : Progress (List StepState)} (hrun : s.resume host rounds = some done)
    (hok : done.result = .ok states) :
    ∃ rounds' done', s'.resume host rounds' = some done' ∧ done'.result = .ok states ∧
      Alone host w₀ done.session done'.session := by
  obtain ⟨hlive, hrun, -⟩ := resume_ok.1 ⟨hrun, hok⟩
  rw [← h.isTerminated] at hlive
  have hrun' : ∃ rounds' done', s'.run host rounds' = some done' ∧ done'.result = .ok states ∧
      Alone host w₀ done.session done'.session := by
    unfold Session.run at hrun ⊢
    rw [h.isStarted]
    split at hrun
    · next hstarted =>
        simp only [if_pos hstarted, h.steps, h.config]
        exact h.runUntil hpure hrun hok
    · next hstarted =>
        cases hrun
        simp only [if_neg hstarted]
        exact ⟨0, _, rfl, h.start hok⟩
  obtain ⟨rounds', done', hrun', hok', h'⟩ := hrun'
  exact ⟨rounds', done', (resume_ok.2 ⟨hlive, hrun', hok'⟩).1, hok', h'⟩

/-- The two sessions when they have been set up. -/
theorem of_new {p : Program} {b : Bindings} {w : World} {inits : List LaneInit} {active : Nat}
    {config : Config} {s₀ : Session} {init : LaneInit} (host : Host)
    (hnew : Session.new p b w inits active config = .ok s₀) (hinit : inits[active]? = some init)
    (hind : p.Independent s₀.world.memory) :
    ∃ s₀', Session.new p b w [init] 0 config = .ok s₀' ∧ Alone host s₀.world s₀ s₀' := by
  obtain ⟨hactive, as, b', live, w', has, hglobals, rfl⟩ := new_ok hnew
  refine ⟨{ program := p, bindings := b', analyses := as, liveGlobals := live
            lanes := [Lane.new 0 p init], active := 0, config, world := w' }, ?_, ?_⟩
  · unfold Session.new
    rw [has]
    dsimp only [Bind.bind, Except.bind]
    rw [hglobals]
    rfl
  · refine ⟨hind, rfl, rfl, rfl, rfl, ⟨Lane.new active p init, ?_, rfl⟩, ?_, .refl .., .refl ..⟩
    · show (inits.mapIdx fun i init => Lane.new i p init)[active]? = _
      rw [List.getElem?_mapIdx, hinit, Option.map_some]
    · intro l hl
      obtain ⟨i, hi, rfl⟩ := List.mem_mapIdx.1 hl
      exact ⟨fun h => nomatch h⟩

end Alone

/-! ## Runs of calls -/

/-- How many rounds are allowed does not matter for what comes out. -/
theorem runUntil_unique {stop n n' : Nat} {acc : Array StepState}
    {done done' : Progress (List StepState)} (h : runUntil host stop n s acc = some done)
    (h' : runUntil host stop n' s acc = some done') : done' = done := by
  induction n generalizing n' s acc with
  | zero => cases h
  | succ n ih =>
      cases n' with
      | zero => cases h'
      | succ n' =>
          rw [runUntil] at h h'
          split at h
          · next hstop =>
              rw [if_pos hstop] at h'
              exact Option.some.inj (h'.symm.trans h)
          · next hstop =>
              rw [if_neg hstop] at h'
              split at h
              · next hlimit =>
                  rw [hlimit] at h'
                  exact Option.some.inj (h'.symm.trans h)
              · next hlimit =>
                  rw [hlimit] at h'
                  dsimp only at h h'
                  split at h
                  · next hround =>
                      rw [hround] at h'
                      exact Option.some.inj (h'.symm.trans h)
                  · next hround =>
                      rw [hround] at h'
                      exact ih h h'

namespace Resumed

variable {s₀ : Session} {n : Nat}

theorem unique {states' : List StepState} (h : Resumed host s₀ n s states)
    (h' : Resumed host s₀ n s' states') : s' = s ∧ states' = states := by
  induction h generalizing s' states' with
  | fresh =>
      cases h'
      exact ⟨rfl, rfl⟩
  | resume hs hresume hok ih =>
      cases h' with
      | resume hs' hresume' hok' =>
          obtain ⟨rfl, rfl⟩ := ih hs'
          obtain ⟨-, hrun, -⟩ := resume_ok.1 ⟨hresume, hok⟩
          obtain ⟨-, hrun', -⟩ := resume_ok.1 ⟨hresume', hok'⟩
          unfold run at hrun hrun'
          split at hrun
          · next hstarted =>
              rw [if_pos hstarted] at hrun'
              obtain rfl := runUntil_unique hrun hrun'
              cases hok.symm.trans hok'
              exact ⟨rfl, rfl⟩
          · next hstarted =>
              rw [if_neg hstarted] at hrun'
              cases hrun.symm.trans hrun'
              cases hok.symm.trans hok'
              exact ⟨rfl, rfl⟩

/-- The session of the reporting lane alone answers the same calls with the same states. -/
theorem alone {s₀' : Session} (h : Resumed host s₀ n s states) (hpure : host.IsPure)
    (hs : Alone host w₀ s₀ s₀') : ∃ s', Resumed host s₀' n s' states ∧ Alone host w₀ s s' := by
  induction h with
  | fresh => exact ⟨s₀', .fresh, hs⟩
  | resume _ hresume hok ih =>
      obtain ⟨s', hs', halone⟩ := ih
      obtain ⟨rounds', done', hresume', hok', halone'⟩ := halone.resume hpure hresume hok
      exact ⟨_, .resume hs' hresume' hok', halone'⟩

/-- Later calls return more states, and none when the reporting lane has finished. -/
theorem extend {m : Nat} {states' : List StepState} (h : Resumed host s₀ n s states) (hle : n ≤ m)
    (h' : Resumed host s₀ m s' states') :
    states <+: states' ∧ (s.isStarted → s.isFinished → s' = s ∧ states' = states) := by
  induction hle generalizing s' states' with
  | refl =>
      obtain ⟨rfl, rfl⟩ := h.unique h'
      exact ⟨List.prefix_rfl, fun _ _ => ⟨rfl, rfl⟩⟩
  | step _ ih =>
      cases h' with
      | @resume _ rounds t before more done hs hresume hok =>
          obtain ⟨hpre, hsame⟩ := ih hs
          refine ⟨hpre.trans (List.prefix_append ..), fun hstarted hfin => ?_⟩
          obtain ⟨rfl, rfl⟩ := hsame hstarted hfin
          obtain ⟨-, hrun, -⟩ := resume_ok.1 ⟨hresume, hok⟩
          rw [run, if_pos hstarted] at hrun
          cases rounds with
          | zero => cases hrun
          | succ rounds =>
              rw [runUntil, if_pos (.inr hfin)] at hrun
              cases hrun
              cases hok
              exact ⟨rfl, List.append_nil _⟩

end Resumed

/-- Lanes that have nothing to do with each other do not notice that they run in lockstep. Whatever
    the calls of a session with many lanes have returned, the same number of calls returns it in the
    session of the reporting lane alone. So it is a prefix of what more calls return there, and all
    there is once the reporting lane has finished. -/
theorem lockstep_is_invisible {p : Program} {b : Bindings} {w : World} {inits : List LaneInit}
    {active : Nat} {config : Config} {s₀ : Session} {init : LaneInit} (hpure : host.IsPure)
    (hnew : Session.new p b w inits active config = .ok s₀) (hinit : inits[active]? = some init)
    (hind : p.Independent s₀.world.memory) :
    ∃ s₀', Session.new p b w [init] 0 config = .ok s₀' ∧
      ∀ n s states, Resumed host s₀ n s states →
        (∃ s', Resumed host s₀' n s' states) ∧
          ∀ m s' states', n ≤ m → Resumed host s₀' m s' states' →
            states <+: states' ∧ (s.isStarted → s.isFinished → states' = states) := by
  obtain ⟨s₀', hnew', halone⟩ := Alone.of_new host hnew hinit hind
  refine ⟨s₀', hnew', fun n s states h => ?_⟩
  obtain ⟨t, ht, halone⟩ := h.alone hpure halone
  refine ⟨⟨t, ht⟩, fun m s' states' hle h' => ?_⟩
  obtain ⟨hpre, hsame⟩ := ht.extend hle h'
  refine ⟨hpre, fun hstarted hfin => ?_⟩
  rw [← halone.isStarted] at hstarted
  rw [← halone.isFinished] at hfin
  exact (hsame hstarted hfin).2

/-- A pixel program that keeps the limit that all lanes share, or zero in the lane with number zero. -/
def keepLimitOrZero : Program :=
  { stage := .pixel
    globals := [{ id := ⟨0⟩, name := "limit", ty := .pointer (.int 32) .stack, init := some (.int 32 7) }]
    functions := #[{
      name := "keepLimitOrZero"
      blocks := #[{}, { preds := [0] }, { preds := [0, 1] }]
      instrs := #[
        { op := .call, ty := .int 32, result := some ⟨1⟩,
          callee := some (.intrinsic .flattenedThreadIdInGroup) },
        { op := .alloca, ty := .pointer (.int 32) .stack, result := some ⟨2⟩ },
        { op := .br, args := [.block 1, .block 2, .ref ⟨1⟩] },
        { op := .load, ty := .int 32, result := some ⟨3⟩, args := [.ref ⟨0⟩] },
        { op := .store, args := [.ref ⟨2⟩, .ref ⟨3⟩] },
        { op := .br, args := [.block 2] },
        { op := .load, ty := .int 32, result := some ⟨4⟩, args := [.ref ⟨2⟩] },
        { op := .ret }] }]
    idCount := 5 }

/-- The lane with number zero waits for the other one, but reports the six states that it reports
    alone, and no more calls give more. -/
theorem keepLimitOrZero_is_undisturbed :
    ∃ s₀ s₀' s states, Session.new keepLimitOrZero {} {} [.numbered 0, .numbered 1] 0 {} = .ok s₀ ∧
      Session.new keepLimitOrZero {} {} [.numbered 0] 0 {} = .ok s₀' ∧
      Resumed .unbound s₀ 2 s states ∧ states.length = 6 ∧
      (∃ s', Resumed .unbound s₀' 2 s' states) ∧
      ∀ m s' states', 2 ≤ m → Resumed .unbound s₀' m s' states' → states' = states := by
  have h : ∃ s₀, Session.new keepLimitOrZero {} {} [.numbered 0, .numbered 1] 0 {} = .ok s₀ ∧
      (s₀.world.memory.pointer? ⟨2⟩).isNone ∧
      ∃ done, s₀.resume .unbound 1 = some done ∧ ∃ first, done.result = .ok first ∧
      ∃ done', done.session.resume .unbound 12 = some done' ∧
      ∃ second, done'.result = .ok second ∧ (([] ++ first) ++ second).length = 6 ∧
        done'.session.isStarted ∧ done'.session.isFinished := by
    decide +kernel
  obtain ⟨s₀, hnew, hlocal, done, hdone, first, hfirst, done', hdone', second, hsecond, hlength,
    hstarted, hfin⟩ := h
  have hpure : Host.unbound.IsPure := ⟨fun _ _ _ => rfl⟩
  have hind : keepLimitOrZero.Independent s₀.world.memory := by
    refine Program.independent_of_local (· == ⟨2⟩) (fun hid hlocal' => ?_) (by decide)
    rw [eq_of_beq hlocal', Option.isNone_iff_eq_none.1 hlocal] at hid
    cases hid
  obtain ⟨s₀', hnew', hruns⟩ := lockstep_is_invisible hpure hnew rfl hind
  have hresumed := Resumed.resume (.resume .fresh hdone hfirst) hdone' hsecond
  obtain ⟨hs', hmore⟩ := hruns _ _ _ hresumed
  refine ⟨s₀, s₀', _, _, hnew, hnew', hresumed, hlength, hs', fun m s' states' hm h' => ?_⟩
  exact (hmore m s' states' hm h').2 hstarted hfin

end Session

end Lockstep
