import Lockstep.Proofs.Session.Waiting

set_option autoImplicit false

/-! # The states that calls return

A session numbers the states that it reports from nought on, without gaps, and counts those that it
has returned until a call fails; after that a call does nothing (`Session.calls_account`). What one
call comes to is a chain of rounds (`Session.Rounds`). Each of them reports as many states as it
counts steps, so that the bounds on steps are bounds on states. -/

namespace Lockstep

namespace Session

variable {s s' s'' : Session} {host : Host} {states more : List StepState} {stop : Nat}

/-! ## Counting -/

/-- The states that are reported on the way from a session to a later one are numbered from the
    count of the session on, and the later one has counted them. -/
structure Counts (s s' : Session) (states : List StepState) : Prop where
  steps : s'.steps = s.steps + states.length
  indexes : states.map StepState.index = List.range' s.steps states.length

namespace Counts

theorem nil (h : s'.steps = s.steps) : Counts s s' [] := ⟨h, rfl⟩

theorem append (h : Counts s s' states) (h' : Counts s' s'' more) :
    Counts s s'' (states ++ more) := by
  refine ⟨by rw [h'.steps, h.steps, List.length_append, Nat.add_assoc], ?_⟩
  rw [List.map_append, h.indexes, h'.indexes, h.steps, List.range'_append_1, List.length_append]

/-- Only the counts matter. -/
theorem congr (h : Counts s s' states) (hsteps : s''.steps = s'.steps) : Counts s s'' states :=
  ⟨hsteps.trans h.steps, h.indexes⟩

end Counts

theorem counts_stepLane {index : Nat} (h : (s.stepLane host index).result = .ok states) :
    Counts s (s.stepLane host index).session states := by
  cases hl : s.lanes[index]? with
  | none =>
      rw [stepLane_of_none hl] at h ⊢
      cases h
      exact .nil rfl
  | some l =>
      obtain ⟨state, -, hsession, rfl⟩ := stepLane_ok hl h
      rw [hsession]
      by_cases hactive : index = s.active
      · rw [if_pos hactive, if_pos hactive]
        exact ⟨rfl, rfl⟩
      · rw [if_neg hactive, if_neg hactive]
        exact .nil rfl

theorem counts_stepLanes {index : Nat} {mask : List Bool}
    (h : (s.stepLanes host index mask).result = .ok states) :
    Counts s (s.stepLanes host index mask).session states := by
  induction mask generalizing s index states with
  | nil =>
      cases h
      exact .nil rfl
  | cons runs rest ih =>
      cases runs with
      | false => exact ih h
      | true =>
          obtain ⟨first, others, hfirst, hrest, hsession, rfl⟩ := stepLanes_ok h
          rw [hsession]
          exact (counts_stepLane hfirst).append (ih hrest)

theorem counts_round (h : (s.round host).result = .ok states) :
    Counts s (s.round host).session states := by
  obtain ⟨hstepped, -, hsession⟩ := round_ok h
  rw [hsession]
  exact (counts_stepLanes hstepped).congr (steps_refresh _ _)

/-- The first call counts from nought if the session is new. -/
theorem counts_start (h : s.start.result = .ok states) (hactive : s.active < s.lanes.length) :
    Counts s s.start.session states ∧ states.length = 1 := by
  obtain ⟨hsession, rfl⟩ := start_ok h
  have hlanes := lanesBy_start h
  obtain ⟨l, hl⟩ : ∃ l, s.start.session.activeLane? = some l := by
    rw [activeLane?, hlanes.active]
    exact ⟨_, List.getElem?_eq_getElem (hlanes.length ▸ hactive)⟩
  rw [hl]
  exact ⟨⟨congrArg Session.steps hsession, rfl⟩, rfl⟩

/-! ## One call -/

/-- A round reports no state exactly when the reporting lane is not let run; a lane that is not
    finished is then not finished after it. -/
theorem not_isFinished_of_silent (h : (s.round host).result = .ok []) (hrun : ¬ s.isFinished) :
    ¬ (s.round host).session.isFinished := by
  have hmask : s.mask[s.active]? ≠ some true := by
    intro hmask
    have hsteps := steps_of_round h
    rw [if_pos hmask, (counts_round h).steps] at hsteps
    exact absurd hsteps (by simp)
  obtain ⟨l, hl, hfin⟩ := isFinished_iff.1 hrun
  have hlanes := lanes_of_round h
  have hlt : s.active < (s.round host).session.lanes.length := by
    rw [hlanes.length]
    exact (List.getElem?_eq_some_iff.1 hl).1
  obtain ⟨l₀, hl₀, hround⟩ := hlanes.lane s.active _ (List.getElem?_eq_getElem hlt)
  obtain rfl : l = l₀ := Option.some.inj (hl.symm.trans hl₀)
  rw [if_neg hmask] at hround
  refine isFinished_iff.2 ⟨(s.round host).session.lanes[s.active], ?_, ?_⟩
  · rw [activeLane?, hlanes.active]
    exact List.getElem?_eq_getElem hlt
  · rwa [Lane.isFinished_of_place (Lane.place_of_frame hround.frame_eq)]

/-- The rounds of a call that is to stop at a number of steps, and the states that they report. -/
inductive Rounds (host : Host) (stop : Nat) : Session → Session → List StepState → Prop
  | stop {s : Session} (h : stop ≤ s.steps ∨ s.isFinished) : Rounds host stop s s []
  | round {s s' : Session} {states more : List StepState} (h : s.GoesOn stop)
      (hok : (s.round host).result = .ok states)
      (hrest : Rounds host stop (s.round host).session s' more) :
      Rounds host stop s s' (states ++ more)

namespace Rounds

theorem of_runUntil {rounds : Nat} {acc : Array StepState} {done : Progress (List StepState)}
    (h : runUntil host stop rounds s acc = some done) (hok : done.result = .ok states) :
    ∃ more, states = acc.toList ++ more ∧ Rounds host stop s done.session more := by
  induction rounds generalizing s acc with
  | zero => cases h
  | succ rounds ih =>
      rcases runUntil_ok h hok with ⟨hstop, hsession, rfl⟩ | ⟨hgoes, hlimit, first, hfirst, h⟩
      · rw [hsession]
        exact ⟨[], (List.append_nil _).symm, .stop hstop⟩
      · rw [not_or] at hgoes
        obtain ⟨more, rfl, hrest⟩ := ih h
        refine ⟨first ++ more, by simp, .round ⟨Nat.lt_of_not_ge hgoes.1, ?_, hgoes.2⟩ hfirst hrest⟩
        intro limit hmax
        rw [hmax] at hlimit
        simpa [Option.filter_eq_none_iff] using hlimit

theorem counts (h : Rounds host stop s s' states) : Counts s s' states := by
  induction h with
  | stop _ => exact .nil rfl
  | round _ hok _ ih => exact (counts_round hok).append ih

theorem session (h : Rounds host stop s s' states) :
    s' = { s with lanes := s'.lanes, world := s'.world, steps := s'.steps } := by
  induction h with
  | stop _ => rfl
  | round _ hok _ ih => rw [ih, round_session hok]

theorem length (h : Rounds host stop s s' states) : s'.lanes.length = s.lanes.length := by
  induction h with
  | stop _ => rfl
  | round _ hok _ ih => exact ih.trans (lanes_of_round hok).length

/-- A round counts at most one step. -/
theorem steps_round_le (h : (s.round host).result = .ok states) :
    (s.round host).session.steps ≤ s.steps + 1 := by
  rw [steps_of_round h]
  split <;> omega

theorem steps_le (h : Rounds host stop s s' states) : s'.steps ≤ max s.steps stop := by
  induction h with
  | stop _ => exact Nat.le_max_left ..
  | round hgoes hok _ ih =>
      have := steps_round_le hok
      have := hgoes.budget
      omega

theorem steps_le_limit (h : Rounds host stop s s' states) {limit : UInt64}
    (hlimit : s.config.maxTotalSteps = some limit) : s'.steps ≤ max s.steps limit.toNat := by
  induction h with
  | stop _ => exact Nat.le_max_left ..
  | round hgoes hok _ ih =>
      have := ih ((lanes_of_round hok).config ▸ hlimit)
      have := steps_round_le hok
      have := hgoes.limit limit hlimit
      omega

/-- A call that has steps left reports a state unless the reporting lane has finished. -/
theorem ne_nil (h : Rounds host stop s s' states) (hbudget : s.steps < stop)
    (hrun : ¬ s.isFinished) : states ≠ [] := by
  induction h with
  | stop h =>
      rcases h with hle | hfin
      · exact absurd hbudget (Nat.not_lt_of_le hle)
      · exact absurd hfin hrun
  | @round s s' states more _ hok _ ih =>
      intro hnil
      obtain ⟨rfl, rfl⟩ := List.append_eq_nil_iff.1 hnil
      refine ih ?_ (not_isFinished_of_silent hok hrun) rfl
      rw [(counts_round hok).steps]
      exact hbudget

end Rounds

/-! ## Calls -/

/-- A session after calls that have returned, whatever the host of each was, and their results. -/
inductive Called (s₀ : Session) : Session → List (Except Fault (List StepState)) → Prop
  | fresh : Called s₀ s₀ []
  | call {s : Session} {results : List (Except Fault (List StepState))} {host : Host}
      {rounds : Nat} {done : Progress (List StepState)} (hs : Called s₀ s results)
      (h : s.resume host rounds = some done) : Called s₀ done.session (results ++ [done.result])

/-- The states that calls have returned, those of the first call first. -/
def returned (results : List (Except Fault (List StepState))) : List StepState :=
  results.flatMap fun result => result.toOption.getD []

/-- No call has failed. -/
def NoneFailed (results : List (Except Fault (List StepState))) : Prop :=
  ∀ fault, .error fault ∉ results

theorem resume_of_isTerminated (h : s.isTerminated) (host : Host) (rounds : Nat) :
    s.resume host rounds = some { session := s, result := .error .sessionTerminated } := by
  unfold resume
  rw [if_pos h]

theorem isTerminated_of_error {rounds : Nat} {done : Progress (List StepState)} {fault : Fault}
    (h : s.resume host rounds = some done) (hfault : done.result = .error fault) :
    done.session.isTerminated := by
  unfold resume at h
  split at h
  · next hterm =>
      cases h
      exact hterm
  · obtain ⟨done', -, rfl⟩ := Option.map_eq_some_iff.1 h
    dsimp only at hfault ⊢
    split at hfault
    · next hok =>
        rw [hok] at hfault
        cases hfault
    · next hfault' => rw [hfault']

/-- A call that succeeds leaves the session as it was but for lanes, what they share and the count of
    states, and the session has then been started. -/
theorem session_of_resume {rounds : Nat} {done : Progress (List StepState)}
    (h : s.resume host rounds = some done) (hok : done.result = .ok states) :
    ¬ s.isTerminated ∧ done.session =
      { s with
        lanes := done.session.lanes, world := done.session.world, steps := done.session.steps
        isStarted := true } := by
  obtain ⟨hterm, hrun, hok⟩ := resume_ok.1 ⟨h, hok⟩
  refine ⟨hterm, ?_⟩
  unfold run at hrun
  split at hrun
  · next hstarted =>
      obtain ⟨more, -, hrounds⟩ := Rounds.of_runUntil hrun hok
      have hsession := hrounds.session
      rwa [← hstarted]
  · obtain rfl := Option.some.inj hrun
    have hsession := (start_ok hok).1
    rw [hsession]

/-- What the states of a call that goes on are. -/
theorem rounds_of_resume {rounds : Nat} {done : Progress (List StepState)} (hstarted : s.isStarted)
    (h : s.resume host rounds = some done) (hok : done.result = .ok states) :
    Rounds host (s.steps + s.config.stepsPerContinue.toNat) s done.session states := by
  obtain ⟨-, hrun, hok⟩ := resume_ok.1 ⟨h, hok⟩
  unfold run at hrun
  rw [if_pos hstarted] at hrun
  obtain ⟨more, rfl, hrounds⟩ := Rounds.of_runUntil hrun hok
  exact hrounds

/-- A call that goes on returns nothing when the reporting lane has finished. -/
theorem resume_of_isFinished {rounds : Nat} {done : Progress (List StepState)} (hterm : ¬ s.isTerminated)
    (hstarted : s.isStarted) (hfin : s.isFinished) (h : s.resume host rounds = some done) :
    done.result = .ok [] := by
  unfold resume run at h
  rw [if_neg hterm, if_pos hstarted] at h
  obtain ⟨done', hrun, rfl⟩ := Option.map_eq_some_iff.1 h
  cases rounds with
  | zero => cases hrun
  | succ rounds =>
      rw [runUntil, if_pos (.inr hfin)] at hrun
      cases hrun
      rfl

/-- A session that no call has been made to. -/
structure IsNew (s : Session) : Prop where
  steps : s.steps = 0
  isStarted : s.isStarted = false
  isTerminated : s.isTerminated = false
  active : s.active < s.lanes.length

theorem isNew_of_new {p : Program} {b : Bindings} {w : World} {inits : List LaneInit} {active : Nat}
    {config : Config} (h : Session.new p b w inits active config = .ok s) :
    s.IsNew ∧ s.config = config := by
  obtain ⟨hactive, _, _, _, _, -, -, rfl⟩ := new_ok h
  exact ⟨⟨rfl, rfl, rfl, by simpa using hactive⟩, rfl⟩

/-- What is known of a session none of whose calls has failed. -/
structure Open (s₀ s : Session) (results : List (Except Fault (List StepState))) : Prop where
  session : s = { s₀ with
    lanes := s.lanes, world := s.world, steps := s.steps, isStarted := !results.isEmpty }
  length : s.lanes.length = s₀.lanes.length
  counts : Counts s₀ s (returned results)
  limit : ∀ limit, s₀.config.maxTotalSteps = some limit → s.steps ≤ max 1 limit.toNat

section

variable {s₀ : Session} {results : List (Except Fault (List StepState))}

theorem returned_append_ok (results : List (Except Fault (List StepState))) (states : List StepState) :
    returned (results ++ [.ok states]) = returned results ++ states := by
  simp [returned, Except.toOption]

theorem returned_append_error (results : List (Except Fault (List StepState))) (fault : Fault) :
    returned (results ++ [.error fault]) = returned results := by
  simp [returned, Except.toOption]

theorem NoneFailed.of_append {result : Except Fault (List StepState)}
    (h : NoneFailed (results ++ [result])) : NoneFailed results ∧ ∃ states, result = .ok states := by
  refine ⟨fun fault hfault => h fault (List.mem_append_left _ hfault), ?_⟩
  cases result with
  | ok states => exact ⟨states, rfl⟩
  | error fault => exact absurd (List.mem_append_right _ (List.mem_singleton_self _)) (h fault)

namespace Open

theorem of_isNew (h : s₀.IsNew) : Open s₀ s₀ [] := by
  refine ⟨?_, rfl, .nil rfl, fun limit _ => ?_⟩
  · show s₀ = { s₀ with isStarted := false }
    rw [← h.isStarted]
  · rw [h.steps]
    exact Nat.zero_le _

theorem config (h : Open s₀ s results) : s.config = s₀.config := by rw [h.session]

theorem isTerminated (h : Open s₀ s results) (hnew : s₀.IsNew) : ¬ s.isTerminated := by
  rw [h.session]
  exact Bool.eq_false_iff.1 hnew.isTerminated

theorem isStarted (h : Open s₀ s results) (hresults : results ≠ []) : s.isStarted := by
  rw [h.session]
  simpa using hresults

/-- What the first call returns. -/
theorem first (h : Open s₀ s []) (hnew : s₀.IsNew) {rounds : Nat}
    {done : Progress (List StepState)} (hcall : s.resume host rounds = some done)
    (hok : done.result = .ok states) :
    Counts s done.session states ∧ states.length = 1 ∧ done.session.lanes.length = s.lanes.length := by
  obtain ⟨-, hrun, hok⟩ := resume_ok.1 ⟨hcall, hok⟩
  have hactive : s.active < s.lanes.length := by
    rw [h.length, h.session]
    exact hnew.active
  have hstarted : ¬ s.isStarted := by
    rw [h.session]
    exact Bool.false_ne_true
  unfold run at hrun
  rw [if_neg hstarted] at hrun
  obtain rfl := Option.some.inj hrun
  obtain ⟨hcounts, hlength⟩ := counts_start hok hactive
  exact ⟨hcounts, hlength, (lanesBy_start hok).length⟩

/-- What a later call comes to. -/
theorem later (h : Open s₀ s results) (hresults : results ≠ []) {rounds : Nat}
    {done : Progress (List StepState)} (hcall : s.resume host rounds = some done)
    (hok : done.result = .ok states) :
    Rounds host (s.steps + s₀.config.stepsPerContinue.toNat) s done.session states := by
  rw [← h.config]
  exact rounds_of_resume (h.isStarted hresults) hcall hok

/-- A call that succeeds keeps what is known. -/
theorem call (h : Open s₀ s results) (hnew : s₀.IsNew) {rounds : Nat}
    {done : Progress (List StepState)} (hcall : s.resume host rounds = some done)
    (hok : done.result = .ok states) : Open s₀ done.session (results ++ [.ok states]) := by
  have hstarted : (!(results ++ [Except.ok (ε := Fault) states]).isEmpty) = true := by simp
  have hsession : done.session = { s₀ with
      lanes := done.session.lanes, world := done.session.world, steps := done.session.steps
      isStarted := !(results ++ [Except.ok states]).isEmpty } := by
    rw [hstarted, (session_of_resume hcall hok).2, h.session]
  -- the first call counts one state, and the rounds of a later one stop at the limit
  by_cases hresults : results = []
  · subst hresults
    obtain ⟨hcounts, hlength, hlanes⟩ := h.first hnew hcall hok
    refine ⟨hsession, hlanes.trans h.length, ?_, fun limit _ => ?_⟩
    · rw [returned_append_ok]
      exact h.counts.append hcounts
    · have hsteps : s.steps = s₀.steps := h.counts.steps
      rw [hcounts.steps, hsteps, hnew.steps, hlength]
      omega
  · have hrounds := h.later hresults hcall hok
    refine ⟨hsession, hrounds.length.trans h.length, ?_, fun limit hlimit => ?_⟩
    · rw [returned_append_ok]
      exact h.counts.append hrounds.counts
    · have hle := hrounds.steps_le_limit (h.config ▸ hlimit)
      have := h.limit limit hlimit
      omega

end Open

namespace Called

theorem isOpen (h : Called s₀ s results) (hnew : s₀.IsNew) (hnone : NoneFailed results) :
    Open s₀ s results := by
  induction h with
  | fresh => exact .of_isNew hnew
  | call _ hcall ih =>
      obtain ⟨hbefore, states, hok⟩ := hnone.of_append
      rw [hok]
      exact (ih hbefore).call hnew hcall hok

/-- A call that has failed has terminated the session. -/
theorem isTerminated (h : Called s₀ s results) {fault : Fault} (hfault : .error fault ∈ results) :
    s.isTerminated := by
  induction h generalizing fault with
  | fresh => cases hfault
  | call _ hcall ih =>
      rcases List.mem_append.1 hfault with hfault | hlast
      · have hterm := ih hfault
        rw [resume_of_isTerminated hterm] at hcall
        obtain rfl := Option.some.inj hcall
        exact hterm
      · exact isTerminated_of_error hcall (List.mem_singleton.1 hlast).symm

/-- A failed call returns no states, so what was returned in all was returned before. -/
theorem exists_isOpen (h : Called s₀ s results) (hnew : s₀.IsNew) :
    ∃ t before, Open s₀ t before ∧ returned results = returned before := by
  induction h with
  | fresh => exact ⟨s₀, [], .of_isNew hnew, rfl⟩
  | @call s results _ _ done hs hcall ih =>
      cases hresult : done.result with
      | error fault =>
          obtain ⟨t, before, ht, hreturned⟩ := ih
          exact ⟨t, before, ht, (returned_append_error results fault).trans hreturned⟩
      | ok states =>
          have hterm : ¬ s.isTerminated := (session_of_resume hcall hresult).1
          have hnone : NoneFailed results := fun fault hfault => hterm (hs.isTerminated hfault)
          exact ⟨_, _, (hs.isOpen hnew hnone).call hnew hcall hresult, rfl⟩

end Called

end

/-- The states that calls have returned are numbered from nought on without gaps, and there are no
    more of them than the limit of the session. While no call has failed, the session counts them;
    the first call returns one state; a later one returns no more than the configuration allows, and
    none exactly when the reporting lane has finished. After a call that has failed, calls fail and
    do nothing. -/
theorem calls_account {p : Program} {b : Bindings} {w : World} {inits : List LaneInit} {active : Nat}
    {config : Config} {s₀ : Session} (hnew : Session.new p b w inits active config = .ok s₀)
    {s : Session} {results : List (Except Fault (List StepState))} (h : Called s₀ s results) :
    (returned results).map StepState.index = List.range (returned results).length ∧
    (∀ limit, config.maxTotalSteps = some limit → 1 ≤ limit →
      (returned results).length ≤ limit.toNat) ∧
    (NoneFailed results →
      s.steps = (returned results).length ∧
      ∀ host rounds done, s.resume host rounds = some done →
        if results = [] then ∀ states, done.result = .ok states → states.length = 1
        else
          (∀ states, done.result = .ok states → states.length ≤ config.stepsPerContinue.toNat) ∧
          (1 ≤ config.stepsPerContinue → (done.result = .ok [] ↔ s.isFinished))) ∧
    (∀ fault, .error fault ∈ results → ∀ host rounds,
      s.resume host rounds = some { session := s, result := .error .sessionTerminated }) := by
  obtain ⟨hisNew, rfl⟩ := isNew_of_new hnew
  obtain ⟨t, before, ht, hreturned⟩ := h.exists_isOpen hisNew
  refine ⟨?_, fun limit hlimit hone => ?_, fun hnone => ⟨?_, fun host rounds done hcall => ?_⟩,
    fun fault hfault host rounds => resume_of_isTerminated (h.isTerminated hfault) host rounds⟩
  · rw [hreturned, ht.counts.indexes, hisNew.steps, List.range_eq_range']
  · have hsteps := ht.counts.steps
    have hle := ht.limit limit hlimit
    have hone : 1 ≤ limit.toNat := hone
    rw [hisNew.steps] at hsteps
    rw [hreturned]
    omega
  · rw [(h.isOpen hisNew hnone).counts.steps, hisNew.steps, Nat.zero_add]
  · have hopen := h.isOpen hisNew hnone
    split
    · next hfirst =>
        subst hfirst
        exact fun states hok => (hopen.first hisNew hcall hok).2.1
    · next hlater =>
        refine ⟨fun states hok => ?_, fun hone => ⟨fun hok => ?_, fun hfin => ?_⟩⟩
        · have hrounds := hopen.later hlater hcall hok
          have hsteps := hrounds.counts.steps
          have hle := hrounds.steps_le
          omega
        · by_contra hrun
          have hone : 1 ≤ s₀.config.stepsPerContinue.toNat := hone
          exact (hopen.later hlater hcall hok).ne_nil (by omega) hrun rfl
        · exact resume_of_isFinished (hopen.isTerminated hisNew) (hopen.isStarted hlater) hfin hcall

/-- A program that branches to its second block for ever. -/
def endlessBranch : Program :=
  { stage := .compute
    functions := #[{
      name := "endlessBranch"
      blocks := #[{}, { preds := [0, 1] }]
      instrs := #[{ op := .br, args := [.block 1] }, { op := .br, args := [.block 1] }] }] }

/-- Two calls return three states, the third fails at the limit, and the session is over. -/
theorem endlessBranch_accounts :
    ∃ s₀ s states states' fault,
      Session.new endlessBranch {} {} [{}] 0 { stepsPerContinue := 2, maxTotalSteps := some 3 } = .ok s₀ ∧
      Called s₀ s [.ok states, .ok states', .error fault] ∧
      (states ++ states').map StepState.index = [0, 1, 2] ∧
      s.resume .unbound 1 = some { session := s, result := .error .sessionTerminated } := by
  have h : ∃ s₀, Session.new endlessBranch {} {} [{}] 0
        { stepsPerContinue := 2, maxTotalSteps := some 3 } = .ok s₀ ∧
      ∃ d₁, s₀.resume .unbound 1 = some d₁ ∧ (∃ states, d₁.result = .ok states ∧
      ∃ d₂, d₁.session.resume .unbound 3 = some d₂ ∧ (∃ states', d₂.result = .ok states' ∧
      (states ++ states').length = 3 ∧
      ∃ d₃, d₂.session.resume .unbound 1 = some d₃ ∧ ¬ ∃ more, d₃.result = .ok more)) := by
    decide +kernel
  obtain ⟨s₀, hnew, d₁, h₁, states, hok₁, d₂, h₂, states', hok₂, hlength, d₃, h₃, hfail⟩ := h
  obtain ⟨fault, hfault⟩ : ∃ fault, d₃.result = .error fault := by
    cases hresult : d₃.result with
    | error fault => exact ⟨fault, rfl⟩
    | ok more => exact absurd ⟨more, hresult⟩ hfail
  have hcalled : Called s₀ d₃.session [d₁.result, d₂.result, d₃.result] :=
    ((Called.fresh.call h₁).call h₂).call h₃
  rw [hok₁, hok₂, hfault] at hcalled
  obtain ⟨hindexes, -, -, hover⟩ := calls_account hnew hcalled
  refine ⟨s₀, d₃.session, states, states', fault, hnew, hcalled, ?_, ?_⟩
  · have hreturned : returned [.ok states, .ok states', .error fault] = states ++ states' := by
      simp [returned, Except.toOption]
    rw [hreturned, hlength] at hindexes
    exact hindexes
  · exact hover fault (by simp) .unbound 1

end Session

end Lockstep
