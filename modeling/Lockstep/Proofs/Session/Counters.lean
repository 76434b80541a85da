import Lockstep.Proofs.Lane.Counters
import Lockstep.Proofs.Session.Derived
import Lockstep.Proofs.Session.Lasting
import Lockstep.Proofs.Session.Turns

set_option autoImplicit false

/-! # Counters and blocks at every moment

A lane that is not finished is in the block that its instruction belongs to, at every moment of a session,
and its three counters agree. There is one exception, after a terminator that could not be carried out
(`Session.branchToNoBlock_strands`). In a session with one lane, a state that is reported says which instruction comes
next, up to the markers before it (`Session.counters_agree`). -/

namespace Lockstep

/-- From a number on, the first instruction of a program that is no marker. -/
structure Program.FirstFrom (p : Program) (n k : Nat) (i : Instr) : Prop where
  le : n ≤ k
  found : p.listing[k]? = some i
  works : ¬ i.isNop
  markers : ∀ j x, n ≤ j → j < k → p.listing[j]? = some x → x.isNop

/-- A lane and what a step makes of it, whether the step succeeds or not. -/
def Lane.Attempting (p : Program) (as : Analyses) (l l' : Lane) : Prop :=
  ∃ (s : Setting) (w : World), s.program = p ∧ s.analyses = as ∧ (l.step s w).lane = l'

namespace Session

variable {p : Program} {b : Bindings} {w : World} {inits : List LaneInit} {active : Nat} {config : Config}
  {s₀ s t : Session} {host : Host} {states told : List StepState} {l l' : Lane} {f : Function}
  {a : FunctionAnalysis}

/-! ## Computations that may fail -/

theorem lanesBy_attempt (s : Session) (host : Host) (index : Nat) :
    LanesBy (fun j l l' => l' = l ∨ (j = index ∧ Lane.Attempting s.program s.analyses l l'))
      s (s.stepLane host index).session := by
  unfold stepLane
  split
  · exact .refl (fun _ _ => .inl rfl) s
  · next l hl =>
      have hstepped : ∀ steps, LanesBy
          (fun j l l' => l' = l ∨ (j = index ∧ Lane.Attempting s.program s.analyses l l')) s
          { s.update index (l.step (s.setting host index) s.world) with steps } :=
        fun _ => .set hl rfl rfl (.inr ⟨rfl, _, _, rfl, rfl, rfl⟩) fun _ _ _ => .inl rfl
      dsimp only
      split
      · exact hstepped _
      · split <;> exact hstepped _

/-- In turns, the last of which may fail, a lane steps at most once. -/
theorem lanesBy_attempts (s : Session) (host : Host) (index : Nat) (mask : List Bool) :
    LanesBy (fun j l l' => l' = l ∨ (index ≤ j ∧ Lane.Attempting s.program s.analyses l l'))
      s (s.stepLanes host index mask).session := by
  induction mask generalizing s index with
  | nil => exact .refl (fun _ _ => .inl rfl) s
  | cons runs rest ih =>
      cases runs with
      | false => exact (ih s (index + 1)).imp fun _ _ _ => .imp_right fun h => ⟨Nat.le_of_succ_le h.1, h.2⟩
      | true =>
          have hfirst := lanesBy_attempt s host index
          rw [stepLanes]
          dsimp only
          split
          · exact hfirst.imp fun _ _ _ => .imp_right fun h => ⟨Nat.le_of_eq h.1.symm, h.2⟩
          · refine hfirst.trans (ih _ (index + 1)) fun j l l₁ l' _ h₁ h₂ => ?_
            rw [hfirst.program, hfirst.analyses] at h₂
            -- the lane that has had its turn is behind the others
            rcases h₁ with rfl | ⟨rfl, h₁⟩
            · exact h₂.imp_right fun h => ⟨Nat.le_of_succ_le h.1, h.2⟩
            · obtain rfl := h₂.resolve_right fun h => absurd h.1 (Nat.not_succ_le_self j)
              exact .inr ⟨Nat.le_refl _, h₁⟩

theorem lanesBy_refreshLanes_frame (s : Session) (index count : Nat) :
    LanesBy (fun _ l l' => l'.frame = l.frame) s (s.refreshLanes index count).session := by
  induction count generalizing s index with
  | zero => exact ⟨rfl, rfl, fun _ l hl => ⟨l, hl, rfl⟩⟩
  | succ count ih =>
      rw [refreshLanes]
      split
      · exact ⟨rfl, rfl, fun _ l hl => ⟨l, hl, rfl⟩⟩
      · next l hl =>
          have hset : LanesBy (fun _ l l' => l'.frame = l.frame) s
              { s with lanes := s.lanes.set index (l.refreshGlobals s.world.memory s.bindings.globals).2 } :=
            .set hl rfl rfl (Lane.frame_refreshGlobals ..) fun _ _ _ => rfl
          dsimp only
          split
          · exact hset
          · exact hset.trans (ih _ (index + 1)) fun _ _ _ _ _ h h' => h'.trans h

theorem lanesBy_refresh_frame (s : Session) (writes : Nat) :
    LanesBy (fun _ l l' => l'.frame = l.frame) s (s.refresh writes).session := by
  unfold refresh
  split
  · exact ⟨rfl, rfl, fun _ l hl => ⟨l, hl, rfl⟩⟩
  · exact lanesBy_refreshLanes_frame ..

/-- When lanes enter the program, the last of which may fail to, a lane enters it at most once. -/
theorem lanesBy_entering (s : Session) (index count : Nat) :
    LanesBy (fun j l l' => l' = l ∨
        (index ≤ j ∧ l' = (l.enter s.program s.bindings s.analyses s.liveGlobals).2))
      s (s.enterLanes index count).session := by
  induction count generalizing s index with
  | zero => exact .refl (fun _ _ => .inl rfl) s
  | succ count ih =>
      rw [enterLanes]
      split
      · exact .refl (fun _ _ => .inl rfl) s
      · next l hl =>
          have hset : LanesBy (fun j l l' => l' = l ∨
              (j = index ∧ l' = (l.enter s.program s.bindings s.analyses s.liveGlobals).2)) s
              { s with lanes := s.lanes.set index (l.enter s.program s.bindings s.analyses s.liveGlobals).2 } :=
            .set hl rfl rfl (.inr ⟨rfl, rfl⟩) fun _ _ _ => .inl rfl
          dsimp only
          split
          · exact hset.imp fun _ _ _ => .imp_right fun h => ⟨Nat.le_of_eq h.1.symm, h.2⟩
          · refine hset.trans (ih _ (index + 1)) fun j l l₁ l' _ h₁ h₂ => ?_
            rcases h₁ with rfl | ⟨rfl, h₁⟩
            · exact h₂.imp_right fun h => ⟨Nat.le_of_succ_le h.1, h.2⟩
            · obtain rfl := h₂.resolve_right fun h => absurd h.1 (Nat.not_succ_le_self j)
              exact .inr ⟨Nat.le_refl _, h₁⟩

/-! ## Lanes at a moment -/

/-- A lane of a session that has been started, if only to fail, is not finished only where a run can be. -/
theorem Fresh.run_of_start (hfresh : Fresh p s₀) (hl : l ∈ s₀.start.session.lanes) (hfin : ¬ l.isFinished) :
    l.Run p s₀.bindings s₀.analyses s₀.liveGlobals := by
  have hlanes : s₀.start.session.lanes =
      (({ s₀ with isStarted := true } : Session).enterLanes 0 s₀.lanes.length).session.lanes := by
    unfold start
    dsimp only
    split <;> rfl
  rw [hlanes] at hl
  obtain ⟨j, hj⟩ := List.getElem?_of_mem hl
  obtain ⟨l₀, hl₀, hentering⟩ := (lanesBy_entering _ 0 _).lane j l hj
  obtain ⟨init, rfl⟩ := hfresh.lane j l₀ hl₀
  rcases hentering with rfl | ⟨-, hentered⟩
  · exact absurd rfl hfin
  · replace hentered : l = ((Lane.new j p init).enter s₀.program s₀.bindings s₀.analyses s₀.liveGlobals).2 :=
      hentered
    rw [hfresh.program] at hentered
    rcases henter : (Lane.new j p init).enter p s₀.bindings s₀.analyses s₀.liveGlobals with ⟨result, l'⟩
    obtain rfl : l = l' := hentered.trans (congrArg Prod.snd henter)
    cases result with
    | ok u => exact .entered henter
    | error fault =>
        -- a lane that has not entered the program is finished
        have hplace := Lane.place_of_enter_error henter
        exact absurd (Lane.isFinished_of_place hplace) hfin

/-- A lane within a round is where a run can be, or it is what a step, which may fail, makes of a lane that
    the round starts with. -/
theorem Moment.lane (hfresh : Fresh p s₀) (hs : Reached s₀ s) (ht : s.Moment t) (hl' : l' ∈ t.lanes) :
    (∃ l : Lane, l.Run p s₀.bindings s₀.analyses s₀.liveGlobals ∧ l'.place = l.place) ∨
      ∃ l ∈ s.lanes, Lane.Attempting p s₀.analyses l l' := by
  have hprogram : s.program = p := hs.program_eq.trans hfresh.program
  have hturns : ∀ host mask, l' ∈ (s.stepLanes host 0 mask).session.lanes →
      (∃ l : Lane, l.Run p s₀.bindings s₀.analyses s₀.liveGlobals ∧ l'.place = l.place) ∨
        ∃ l ∈ s.lanes, Lane.Attempting p s₀.analyses l l' := by
    intro host mask hl'
    obtain ⟨j, hj⟩ := List.getElem?_of_mem hl'
    obtain ⟨l, hl, rfl | ⟨-, hattempt⟩⟩ := (lanesBy_attempts s host 0 mask).lane j l' hj
    · exact .inl ⟨l', hs.run hfresh (List.mem_of_getElem? hl), rfl⟩
    · rw [hprogram, hs.analyses_eq] at hattempt
      exact .inr ⟨l, List.mem_of_getElem? hl, hattempt⟩
  cases ht with
  | turns host mask => exact hturns host mask hl'
  | round host =>
      cases hround : (s.round host).result with
      | ok states => exact .inl ⟨l', (hs.round hround).run hfresh hl', rfl⟩
      | error fault =>
          unfold Session.round at hround hl'
          dsimp only at hround hl'
          split at hl'
          · exact hturns host s.mask hl'
          · next states hstepped =>
              rw [hstepped] at hround
              dsimp only at hround
              split at hl'
              -- the turns have succeeded, and reading the global variables again has not
              · obtain ⟨j, hj⟩ := List.getElem?_of_mem hl'
                obtain ⟨l₁, hl₁, hframe⟩ := (lanesBy_refresh_frame _ _).lane j l' hj
                obtain ⟨l, hl, hstep⟩ := (lanesBy_stepLanes hstepped).lane j l₁ hl₁
                have hrun := hs.run hfresh (List.mem_of_getElem? hl)
                refine .inl ⟨l₁, ?_, Lane.place_of_frame hframe⟩
                split at hstep
                · obtain ⟨setting, w, state, hp, has, hok, rfl⟩ := hstep
                  exact .stepped hrun (hp.trans hprogram) (has.trans hs.analyses_eq) hok
                · rwa [hstep]
              · next hrefreshed =>
                  rw [hrefreshed] at hround
                  cases hround

theorem inStep_of_run (hfresh : Fresh p s₀) (h : l.Run p s₀.bindings s₀.analyses s₀.liveGlobals)
    (hfin : ¬ l.isFinished) : l.InStep p s₀.analyses := by
  obtain ⟨a, ha⟩ := h.analysed
  obtain ⟨f, he⟩ := hfresh.enters ha
  exact ⟨f, a, he, (h.standing he hfin).inStep he.describes⟩

/-- At every moment, the counters of a lane that is not finished agree, unless its last step has failed at a
    terminator. -/
theorem Visited.inStep (hfresh : Fresh p s₀) (ht : s₀.Visited t) (hl : l ∈ t.lanes) (hfin : ¬ l.isFinished) :
    l.InStep p s₀.analyses ∨ ∃ u : Move, u.Strands p s₀.analyses ∧ l = u.stepped.lane := by
  cases ht with
  | fresh =>
      obtain ⟨j, hj⟩ := List.getElem?_of_mem hl
      obtain ⟨init, rfl⟩ := hfresh.lane j l hj
      exact absurd rfl hfin
  | start => exact .inl (inStep_of_run hfresh (hfresh.run_of_start hl hfin) hfin)
  | @moment s _ hs hmoment =>
      rcases hmoment.lane hfresh hs hl with ⟨l₀, hrun, hplace⟩ | ⟨l₀, hl₀, setting, w, hp, has, rfl⟩
      · have hstep := inStep_of_run hfresh hrun (Lane.isFinished_of_place hplace ▸ hfin)
        exact .inl (by rwa [Lane.InStep, hplace])
      · have hrun := hs.run hfresh hl₀
        by_cases hfin₀ : l₀.isFinished
        · rw [Lane.step_of_isFinished hfin₀] at hfin
          exact absurd hfin₀ hfin
        · obtain ⟨f, a, he⟩ := hs.enters hfresh
          refine (Lane.inStep_of_step he (hrun.standing he hfin₀) hfin₀ hp has hfin).imp_right fun hstrands => ?_
          exact ⟨_, hstrands, rfl⟩

/-! ## What is reported -/

/-- A session between two rounds, with the states that have been reported until then. -/
inductive Told (s₀ : Session) : Session → List StepState → Prop
  | started {states : List StepState} (h : s₀.start.result = .ok states) : Told s₀ s₀.start.session states
  | round {s : Session} {told states : List StepState} {host : Host} (hs : Told s₀ s told)
      (h : (s.round host).result = .ok states) : Told s₀ (s.round host).session (told ++ states)

theorem Told.reached (h : Told s₀ s told) : Reached s₀ s := by
  induction h with
  | started h => exact .started h
  | round _ h ih => exact .round ih h

/-- The state that a round of a lane that runs alone reports says where the lane is before it moves past
    markers. -/
theorem next_of_round_alone {l₀ : Lane} (hfresh : Fresh p s₀) (hactive : s₀.active = 0) (hs : Reached s₀ s)
    (hl₀ : s.lanes = [l₀]) (h : (s.round host).result = .ok states)
    (hl : (s.round host).session.lanes = [l]) (hfin : ¬ l.isFinished) :
    ∃ (l₁ : Lane) (state : StepState), l₁.Run p s₀.bindings s₀.analyses s₀.liveGlobals ∧ ¬ l₁.isFinished ∧
      l = l₁.skipNops p ∧ states = [state] ∧ state.next = l₁.globalInstr := by
  have hfin₀ : ¬ l₀.isFinished := by
    intro hfin₀
    obtain ⟨hlanes, -⟩ := round_alone_of_isFinished hl₀ hfin₀ h
    cases hlanes.symm.trans hl
    exact hfin hfin₀
  obtain ⟨l₁, state, hok, hstates, hrefresh, hlanes, -⟩ := round_alone hl₀ hfin₀ h
  have hprogram : s.program = p := hs.program_eq.trans hfresh.program
  rw [hprogram] at hlanes
  cases hlanes.symm.trans hl
  rw [Lane.isFinished_skipNops] at hfin
  have hplace := Lane.place_of_frame hrefresh.frame_eq
  have hended : ¬ (s.move host 0 l₀).stepped.lane.isEnded := fun hended =>
    hfin (Lane.isFinished_of_place hplace ▸ Lane.isFinished_of_stop (.inr hended))
  refine ⟨l₁, { state with index := s.steps }, ?_, hfin, rfl,
    hstates ((active_of_setup hs.setup_eq).trans hactive), ?_⟩
  · have hrun : l₀.Run p s₀.bindings s₀.analyses s₀.liveGlobals := hs.run hfresh (by simp [hl₀])
    rw [hs.bindings_eq] at hrefresh
    exact hrefresh.run (.stepped hrun hprogram hs.analyses_eq hok)
  · exact (Lane.next_of_step_state hfin₀ hok hended).trans (congrArg Place.globalInstr hplace).symm

/-- When a lane runs alone, the state that was reported last says where it is, but for the markers that it has
    moved past. -/
theorem Told.next (hfresh : Fresh p s₀) (hactive : s₀.active = 0) (he : p.Enters s₀.analyses f a)
    (h : Told s₀ s told) (hl : s.lanes = [l]) (hfin : ¬ l.isFinished) :
    ∃ state k n, told.getLast? = some state ∧ state.next = a.offset + k ∧ l.instr = k + n ∧
      ∀ j < n, Lane.atNop f (k + j) := by
  cases h with
  | @started states h =>
      have hrun : l.Run p s₀.bindings s₀.analyses s₀.liveGlobals :=
        Reached.run hfresh (.started h) (by simp [hl])
      have hlane : s₀.start.session.activeLane? = some l := by
        rw [activeLane?, (lanesBy_start h).active, hactive, hl]
        rfl
      refine ⟨{ l.initialState s₀.bindings with index := s₀.steps }, l.instr, 0, ?_,
        (hrun.standing he hfin).numbered.globalInstr, rfl, fun j hj => absurd hj (Nat.not_lt_zero j)⟩
      rw [(start_ok h).2, hlane]
      rfl
  | @round s told states host hs h =>
      obtain ⟨l₀, hl₀⟩ : ∃ l₀, s.lanes = [l₀] := by
        have hlength := (lanes_of_round h).length
        rw [hl] at hlength
        exact List.length_eq_one_iff.1 hlength.symm
      obtain ⟨l₁, state, hrun, hfin₁, rfl, rfl, hnext⟩ :=
        next_of_round_alone hfresh hactive hs.reached hl₀ h hl hfin
      have hnumbered := (hrun.standing he hfin₁).numbered
      have hfunction : p.functions[l₁.function]? = some f :=
        (congrArg (p.functions[·]?) hnumbered.function).trans he.function
      exact ⟨state, l₁.instr, Lane.nopsFrom f l₁.instr f.instrs.size, List.getLast?_concat ..,
        hnext.trans hnumbered.globalInstr, congrArg Place.instr (Lane.place_skipNops hfin₁ hfunction),
        fun _ => Lane.atNop_of_lt_nopsFrom⟩

/-- The listing has the instructions of the function that is entered, from their offset on. -/
theorem Fresh.getElem?_listing (hfresh : Fresh p s₀) (he : p.Enters s₀.analyses f a) {k : Nat} {i : Instr}
    (hi : f.instrs[k]? = some i) : p.listing[a.offset + k]? = some i := by
  obtain ⟨f', before, after, hf', hlisting, hok⟩ :=
    FunctionAnalysis.listing_of_ofProgram hfresh.analyses he.analysis
  obtain rfl : f = f' := Option.some.inj (he.function.symm.trans hf')
  rw [← Array.getElem?_toList] at hi
  rw [hlisting, FunctionAnalysis.offset_of_ofFunction hok,
    List.getElem?_append_right (Nat.le_add_right _ _), Nat.add_sub_cancel_left,
    List.getElem?_append_left (List.getElem?_eq_some_iff.1 hi).1, hi]

/-- A lane that runs alone executes the first instruction that is no marker from the one on that was reported
    to come next. -/
theorem Told.firstFrom (hfresh : Fresh p s₀) (hactive : s₀.active = 0) (h : Told s₀ s told)
    (hl : s.lanes = [l]) (hfin : ¬ l.isFinished) {i : Instr} (hi : (s.move host 0 l).Executes i) :
    ∃ state, told.getLast? = some state ∧ p.FirstFrom state.next l.globalInstr i := by
  have hs := h.reached
  have hmem : l ∈ s.lanes := by simp [hl]
  have hprogram : s.program = p := hs.program_eq.trans hfresh.program
  obtain ⟨f, a, hsettled⟩ := Settled.of_reached hfresh hs
  have he : p.Enters s₀.analyses f a := by
    have he := hsettled.enters
    rwa [hprogram, hs.analyses_eq] at he
  have hstanding := (hs.run hfresh hmem).standing he hfin
  have hglobal : l.globalInstr = a.offset + l.instr := hstanding.numbered.globalInstr
  obtain ⟨a', hnext⟩ := hi
  replace hnext : l.nextInstr s.program s.analyses = .ok (a', i) := hnext
  rw [hprogram, hs.analyses_eq] at hnext
  obtain ⟨-, hinstr⟩ := Lane.instr_of_nextInstr he hstanding.numbered.function hnext
  obtain ⟨state, k, n, hlast, hstate, hplace, hmarkers⟩ := h.next hfresh hactive he hl hfin
  refine ⟨state, hlast, ⟨by omega, ?_, fun hnop => ?_, fun j x hle hlt hx => ?_⟩⟩
  · rw [hglobal]
    exact hfresh.getElem?_listing he hinstr
  · exact (hsettled.rest l hmem hfin).instr (by rw [Lane.atNop, hinstr]; exact hnop)
  · obtain ⟨y, hy, hnop⟩ := (Option.any_eq_true _ _).1 (hmarkers (j - (a.offset + k)) (by omega))
    have hlisted := hfresh.getElem?_listing he hy
    rw [show a.offset + (k + (j - (a.offset + k))) = j by omega] at hlisted
    cases hlisted.symm.trans hx
    exact hnop

/-- Between two rounds, the counters of every lane that is not finished agree: its number over the whole program,
    its instruction, and its block as the starts of the blocks and the walk over the instructions have it. Within a
    round and after a fault they agree too, unless the last step of the lane has failed at a terminator: it is then
    behind the terminator, and in the block that this ends. When a lane runs alone, each step executes the first
    instruction that is no marker from the one on that was reported last to come next. -/
theorem counters_agree (hnew : Session.new p b w inits active config = .ok s₀) :
    (∀ s l, Reached s₀ s → l ∈ s.lanes → ¬ l.isFinished → l.InStep p s₀.analyses) ∧
    (∀ t l, s₀.Visited t → l ∈ t.lanes → ¬ l.isFinished →
      l.InStep p s₀.analyses ∨ ∃ u : Move, u.Strands p s₀.analyses ∧ l = u.stepped.lane) ∧
    (∀ s told host l i, Told s₀ s told → s.lanes = [l] → ¬ l.isFinished → (s.move host 0 l).Executes i →
      ∃ state, told.getLast? = some state ∧ p.FirstFrom state.next l.globalInstr i) := by
  have hfresh := fresh_of_new hnew
  refine ⟨fun s l hs hl hfin => inStep_of_run hfresh (hs.run hfresh hl) hfin,
    fun t l ht hl hfin => ht.inStep hfresh hl hfin, fun s told host l i htold hl hfin hi => ?_⟩
  refine htold.firstFrom hfresh ?_ hl hfin hi
  have hactive : s₀.active < s₀.lanes.length := by
    obtain ⟨hactive, _, _, _, _, -, -, rfl⟩ := new_ok hnew
    simpa using hactive
  have hlength := htold.reached.length_eq
  rw [hl, List.length_singleton] at hlength
  omega

/-- A program that enters the last of its functions, where there are markers before the branch and behind it. -/
def markersAroundBranch : Program :=
  { stage := .compute
    entry := 2
    functions := #[
      { name := "unused", blocks := #[{}], instrs := #[{ op := .ret }] },
      { name := "external", isExternal := true },
      { name := "markersAroundBranch"
        blocks := #[{}, { preds := [0] }]
        instrs := #[
          { op := .call, callee := some .marker },
          { op := .br, args := [.block 1] },
          { op := .call, callee := some .marker },
          { op := .call, callee := some .marker },
          { op := .ret }] }] }

/-- When the branch has been reported, instruction `3` comes next, and the lane goes on at instruction `5`. -/
theorem markersAroundBranch_agree :
    ∃ s₀ s told l i state, Session.new markersAroundBranch {} {} [{}] 0 {} = .ok s₀ ∧ Told s₀ s told ∧ s.lanes = [l] ∧
      ¬ l.isFinished ∧ l.InStep markersAroundBranch s₀.analyses ∧ (s.move .unbound 0 l).Executes i ∧
      told.getLast? = some state ∧ state.next = 3 ∧ l.globalInstr = 5 ∧ markersAroundBranch.FirstFrom 3 5 i := by
  have h : ∃ s₀, Session.new markersAroundBranch {} {} [{}] 0 {} = .ok s₀ ∧ ∃ first, s₀.start.result = .ok first ∧
      ∃ more, (s₀.start.session.round .unbound).result = .ok more ∧
      ∃ state, (first ++ more).getLast? = some state ∧ state.next = 3 ∧
      (s₀.start.session.round .unbound).session.lanes.length = 1 ∧
      ∃ l, (s₀.start.session.round .unbound).session.lanes[0]? = some l ∧ ¬ l.isFinished ∧ l.globalInstr = 5 ∧
      ∃ found, l.nextInstr (s₀.start.session.round .unbound).session.program
        (s₀.start.session.round .unbound).session.analyses = .ok found := by
    decide +kernel
  obtain ⟨s₀, hnew, first, hstart, more, hround, state, hlast, hnext, hlength, l, hl, hfin, hglobal,
    ⟨a, i⟩, hi⟩ := h
  have htold := (Told.started hstart).round hround
  obtain ⟨l', hlanes⟩ := List.length_eq_one_iff.1 hlength
  rw [hlanes] at hl
  cases hl
  obtain ⟨hstep, -, hexecutes⟩ := counters_agree hnew
  have hexecuted : ((s₀.start.session.round .unbound).session.move .unbound 0 l).Executes i := ⟨a, hi⟩
  obtain ⟨state', hlast', hfirst⟩ := hexecutes _ _ .unbound l i htold hlanes hfin hexecuted
  cases hlast.symm.trans hlast'
  rw [hnext, hglobal] at hfirst
  exact ⟨s₀, _, _, l, i, state, hnew, htold, hlanes, hfin,
    hstep _ l htold.reached (by simp [hlanes]) hfin, hexecuted, hlast, hnext, hglobal, hfirst⟩

/-- A program whose first block branches to a block that it does not have. -/
def branchToNoBlock : Program :=
  { stage := .compute
    functions := #[{
      name := "branchToNoBlock"
      blocks := #[{}, { preds := [0] }]
      instrs := #[{ op := .br, args := [.block 2] }, { op := .ret }] }] }

/-- When the branch has failed, the lane is at the instruction behind it, and still in the first block. -/
theorem branchToNoBlock_strands :
    ∃ s₀ s l, Session.new branchToNoBlock {} {} [{}] 0 {} = .ok s₀ ∧ Reached s₀ s ∧
      s₀.Visited (s.round .unbound).session ∧ l ∈ (s.round .unbound).session.lanes ∧ ¬ l.isFinished ∧ l.block = 0 ∧
      l.instr = 1 ∧
      ¬ l.InStep branchToNoBlock s₀.analyses := by
  have h : ∃ s₀, Session.new branchToNoBlock {} {} [{}] 0 {} = .ok s₀ ∧ ∃ states, s₀.start.result = .ok states ∧
      ∃ l, (s₀.start.session.round .unbound).session.lanes[0]? = some l ∧ ¬ l.isFinished ∧ l.block = 0 ∧
        l.instr = 1 := by
    decide +kernel
  obtain ⟨s₀, hnew, states, hstart, l, hl, hfin, hblock, hinstr⟩ := h
  have hreached : Reached s₀ s₀.start.session := .started hstart
  refine ⟨s₀, s₀.start.session, l, hnew, hreached, .moment hreached (.round .unbound), List.mem_of_getElem? hl,
    hfin, hblock, hinstr, ?_⟩
  rintro ⟨f, a, he, hstep⟩
  cases he.function
  have hstarts : branchToNoBlock.functions[0].blockStarts = .ok [0, 1] := rfl
  have hblocks : a.starts = [0, 1] := ok_inj (he.describes.starts.symm.trans hstarts)
  rcases hstep.start with ⟨hempty, -⟩ | ⟨start, hstart, -, hno⟩
  · cases congrArg Array.size hempty
  · have hzero : a.start? 0 = some 0 := congrArg (·[0]?) hblocks
    cases hzero.symm.trans (hblock ▸ hstart : a.start? 0 = some start)
    exact hno 0 _ (Nat.le_refl 0) (show 0 < l.instr by omega) rfl rfl

end Session

end Lockstep
