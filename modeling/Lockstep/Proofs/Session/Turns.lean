import Lockstep.Proofs.Exec.Derivative
import Lockstep.Proofs.Lane.Turn
import Lockstep.Proofs.Session.Mask
import Lockstep.Proofs.Session.Rounds

set_option autoImplicit false

/-! # The turns of a round

In a round the lanes that may run have their turns one after the other. A round that fails before the
global variables are read again has failed in the turn of a lane (`Session.hasTurn_of_error`). Between
two rounds each lane that is not finished rests at an instruction of the entry function
(`Session.Settled.of_reached`). -/

namespace Lockstep

/-- Where lanes were found at different places. -/
def Fault.syncPoint? : Fault → Option SyncPoint
  | .diverged at_ => some at_
  | _ => none

/-! ## Numbers of lanes -/

namespace Lane

variable {p : Program} {b : Bindings} {as : Analyses} {liveGlobals : Array Bool} {l l' : Lane}

theorem index_of_frame (h : l'.frame = l.frame) : l'.index = l.index :=
  show l'.frame.index = l.frame.index from congrArg index h

theorem index_assign (id : Id) (v : Variable) : (l.assign id v).index = l.index := by
  obtain ⟨_, _, _, -, h⟩ := assign_eq l id v
  rw [h]

theorem index_skipNops (p : Program) : (l.skipNops p).index = l.index := by
  obtain ⟨_, _, _, h⟩ := skipNops_eq l p
  rw [h]

theorem index_of_stepping (h : Stepping p as l l') : l'.index = l.index := by
  obtain ⟨s, w, state, -, -, hok, rfl⟩ := h
  by_cases hfin : l.isFinished
  · rw [step_of_isFinished hfin]
  · obtain ⟨a, i, l₁, -, hframe, hconcludes⟩ := step_cases hfin hok
    have hindex : l₁.index = l.index := (index_of_frame hframe : l₁.index = l.advanced.index)
    rw [← hindex]
    generalize (l.step s w).lane = l₂ at hconcludes
    cases hconcludes with
    | proceed _ => rfl
    | assign id v _ _ => exact index_assign id v
    | jump b l' _ _ hjump =>
        obtain ⟨_, -, rfl⟩ := jumpTo_ok hjump
        rfl
    | leave _ => rfl
    | kill => rfl

theorem index_of_enter (h : l.enter p b as liveGlobals = (.ok (), l')) : l'.index = l.index := by
  have hindex : (l.bindGlobals b.globals).1.index = l.index :=
    bindGlobals_induction (P := fun l' => l'.index = l.index) rfl fun _ h => (index_assign ..).trans h
  obtain ⟨a, l₁, -, hl₁, rfl⟩ := eq_of_enter h
  rw [hl₁] at hindex
  exact (index_skipNops p).trans hindex

/-- A lane that steps and moves past markers comes to rest at an instruction of its function. -/
theorem rests_of_stepping {f : Function} {a : FunctionAnalysis} (he : p.Enters as f a)
    (hl : l.place.Numbered f a p.entry) (hfin : ¬ l.isFinished) {l₁ l₂ : Lane}
    (hstep : Stepping p as l l₁) (hrefresh : Refreshing b.globals l₁ l₂)
    (hfin' : ¬ (l₂.skipNops p).isFinished) :
    (l₂.skipNops p).place.Numbered f a p.entry ∧ (l₂.skipNops p).AtRest f := by
  obtain ⟨s, w, state, hp, has, hok, rfl⟩ := hstep
  obtain ⟨i, -, hi, hnext⟩ := next_of_step he hl.function hfin hp has hok
  rw [isFinished_skipNops] at hfin'
  rw [← place_of_frame hrefresh.frame_eq] at hnext
  have hnumbered := hl.next he.describes.starts hi hnext fun h => hfin' (isFinished_of_stop h)
  exact ⟨numbered_skipNops he hnumbered, (skipNops_spec he hnumbered.function hfin').2.2⟩

end Lane

namespace Session

variable {s : Session} {host : Host} {states : List StepState}

/-! ## Turns -/

/-- What the turn of a lane gives. -/
def turn (s : Session) (host : Host) (k : Nat) : Progress (List StepState) :=
  (s.stepLanes host 0 (s.mask.take k)).session.stepLane host k

/-- A lane has its turn in a round: it may run, and those before it have had theirs without a
    fault. -/
def HasTurn (s : Session) (host : Host) (k : Nat) : Prop :=
  s.mask[k]? = some true ∧ ∃ states, (s.stepLanes host 0 (s.mask.take k)).result = .ok states

instance (s : Session) (host : Host) (k : Nat) : Decidable (s.HasTurn host k) :=
  inferInstanceAs (Decidable (_ ∧ _))

/-- The turns of lanes of which the first has had its turn without a fault. -/
theorem stepLanes_of_ok {index : Nat} (h : (s.stepLane host index).result = .ok states)
    (rest : List Bool) :
    s.stepLanes host index (true :: rest) =
      { session := ((s.stepLane host index).session.stepLanes host (index + 1) rest).session
        result := ((s.stepLane host index).session.stepLanes host (index + 1) rest).result.map
          (states ++ ·) } := by
  rw [stepLanes]
  dsimp only
  rw [h]

/-- Turns that fail do so in one of them; those before it succeed. -/
theorem stepLanes_error {index : Nat} {mask : List Bool} {fault : Fault}
    (h : (s.stepLanes host index mask).result = .error fault) :
    ∃ k, mask[k]? = some true ∧
      (∃ states, (s.stepLanes host index (mask.take k)).result = .ok states) ∧
      ((s.stepLanes host index (mask.take k)).session.stepLane host (index + k)).result =
        .error fault := by
  induction mask generalizing s index with
  | nil => cases h
  | cons runs rest ih =>
      cases runs with
      | false =>
          obtain ⟨k, hk, hbefore, hfault⟩ := ih h
          rw [Nat.add_right_comm] at hfault
          exact ⟨k + 1, hk, hbefore, hfault⟩
      | true =>
          cases hfirst : (s.stepLane host index).result with
          | error fault' =>
              rw [stepLanes] at h
              dsimp only at h
              rw [hfirst] at h
              cases h
              exact ⟨0, rfl, ⟨[], rfl⟩, hfirst⟩
          | ok first =>
              rw [stepLanes_of_ok hfirst] at h
              obtain ⟨k, hk, ⟨others, hbefore⟩, hfault⟩ := ih (error_of_map h)
              rw [Nat.add_right_comm] at hfault
              refine ⟨k + 1, hk, ?_⟩
              rw [List.take_succ_cons, stepLanes_of_ok hfirst]
              exact ⟨⟨first ++ others, by rw [hbefore]; rfl⟩, hfault⟩

/-- Turns that succeed do so one by one. -/
theorem stepLanes_ok_at {index : Nat} {mask : List Bool}
    (h : (s.stepLanes host index mask).result = .ok states) {k : Nat} (hk : mask[k]? = some true) :
    (∃ states, (s.stepLanes host index (mask.take k)).result = .ok states) ∧
      ∃ states, ((s.stepLanes host index (mask.take k)).session.stepLane host (index + k)).result =
        .ok states := by
  induction mask generalizing s index states k with
  | nil => cases hk
  | cons runs rest ih =>
      cases runs with
      | false =>
          cases k with
          | zero => cases hk
          | succ k =>
              obtain ⟨hbefore, hturn⟩ := ih h hk
              rw [Nat.add_right_comm] at hturn
              exact ⟨hbefore, hturn⟩
      | true =>
          obtain ⟨first, others, hfirst, hrest, -⟩ := stepLanes_ok h
          cases k with
          | zero => exact ⟨⟨[], rfl⟩, first, hfirst⟩
          | succ k =>
              obtain ⟨⟨before, hbefore⟩, hturn⟩ := ih hrest hk
              rw [Nat.add_right_comm] at hturn
              rw [List.take_succ_cons, stepLanes_of_ok hfirst]
              exact ⟨⟨first ++ before, by rw [hbefore]; rfl⟩, hturn⟩

/-- After all turns a lane is as its own turn has left it. -/
theorem getElem?_stepLanes {index : Nat} {mask : List Bool}
    (h : (s.stepLanes host index mask).result = .ok states) {k : Nat} (hk : mask[k]? = some true) :
    (s.stepLanes host index mask).session.lanes[index + k]? =
      ((s.stepLanes host index (mask.take k)).session.stepLane host (index + k)).session.lanes[index + k]? := by
  induction mask generalizing s index states k with
  | nil => cases hk
  | cons runs rest ih =>
      cases runs with
      | false =>
          cases k with
          | zero => cases hk
          | succ k =>
              have hrest := ih h hk
              rwa [Nat.add_right_comm] at hrest
      | true =>
          obtain ⟨first, others, hfirst, hrest, hsession, -⟩ := stepLanes_ok h
          rw [hsession]
          cases k with
          | zero =>
              refine (lanesBy_stepLanes hrest).getElem?_eq fun {l l'} hsame => ?_
              rwa [if_neg (by omega)] at hsame
          | succ k =>
              have hlater := ih hrest hk
              rw [Nat.add_right_comm] at hlater
              rw [List.take_succ_cons, stepLanes_of_ok hfirst]
              exact hlater

/-- The turn of a lane fails as its step does. -/
theorem stepLane_error_iff {index : Nat} {l : Lane} {fault : Fault} (hl : s.lanes[index]? = some l) :
    (s.stepLane host index).result = .error fault ↔
      (l.step (s.setting host index) s.world).result = .error fault := by
  unfold stepLane
  rw [hl]
  dsimp only
  cases (l.step (s.setting host index) s.world).result with
  | error fault' => simp only [Except.error.injEq]
  | ok state =>
      dsimp only
      split <;> simp only [reduceCtorEq]

/-- A round in which the turns fail has failed in the turn of a lane. -/
theorem hasTurn_of_error {fault : Fault} (h : (s.stepLanes host 0 s.mask).result = .error fault) :
    ∃ k, s.HasTurn host k ∧ (s.turn host k).result = .error fault := by
  obtain ⟨k, hk, hbefore, hfault⟩ := stepLanes_error h
  rw [Nat.zero_add] at hfault
  exact ⟨k, ⟨hk, hbefore⟩, hfault⟩

/-- In a round in which the turns succeed every lane that may run has its turn, without a fault. -/
theorem hasTurn_of_ok (h : (s.stepLanes host 0 s.mask).result = .ok states) {k : Nat}
    (hk : s.mask[k]? = some true) : s.HasTurn host k ∧ ∃ states, (s.turn host k).result = .ok states := by
  obtain ⟨hbefore, hturn⟩ := stepLanes_ok_at h hk
  rw [Nat.zero_add] at hturn
  exact ⟨⟨hk, hbefore⟩, hturn⟩

/-- Reading the global variables again fails only for want of memory. -/
theorem memory_of_refreshGlobals {memory : Memory} {gs : List GlobalVar} {l : Lane} {fault : Fault}
    (h : (l.refreshGlobals memory gs).1 = .error fault) : ∃ cause, fault = .memory cause := by
  induction gs generalizing l with
  | nil => cases h
  | cons g gs ih =>
      rw [Lane.refreshGlobals] at h
      split at h
      · exact ih h
      · split at h
        · next fault' hfault =>
            cases h
            unfold Memory.reload at hfault
            split at hfault <;> cases hfault
            exact ⟨_, rfl⟩
        · exact ih h

theorem memory_of_refreshLanes {index count : Nat} {fault : Fault}
    (h : (s.refreshLanes index count).result = .error fault) : ∃ cause, fault = .memory cause := by
  induction count generalizing s index with
  | zero => cases h
  | succ count ih =>
      rw [refreshLanes] at h
      split at h
      · cases h
      · dsimp only at h
        split at h
        · next hfault =>
            cases h
            exact memory_of_refreshGlobals hfault
        · exact ih h

theorem memory_of_refresh {writes : Nat} {fault : Fault} (h : (s.refresh writes).result = .error fault) :
    ∃ cause, fault = .memory cause := by
  unfold refresh at h
  split at h
  · cases h
  · exact memory_of_refreshLanes h

/-- A round fails in the turns of lanes, or for want of memory. -/
theorem error_of_round {fault : Fault} (h : (s.round host).result = .error fault) :
    (s.stepLanes host 0 s.mask).result = .error fault ∨ ∃ cause, fault = .memory cause := by
  unfold round at h
  dsimp only at h
  split at h
  · next hfault =>
      cases h
      exact .inl hfault
  · split at h
    · next hfault =>
        cases h
        exact .inr (memory_of_refresh hfault)
    · cases h

instance decidableDiverged {α : Type} {x : Except Fault α} {at_ : SyncPoint} :
    Decidable (x = .error (.diverged at_)) :=
  match x with
  | .ok _ => isFalse fun h => nomatch h
  | .error fault => decidable_of_iff (fault.syncPoint? = some at_) (by
      cases fault <;> simp [Fault.syncPoint?])

/-- A round finds lanes at different places only in the turn of a lane. -/
theorem round_diverged_iff {at_ : SyncPoint} : (s.round host).result = .error (.diverged at_) ↔
    (s.stepLanes host 0 s.mask).result = .error (.diverged at_) := by
  constructor
  · intro h
    refine (error_of_round h).resolve_right ?_
    rintro ⟨cause, hcause⟩
    cases hcause
  · intro h
    unfold round
    dsimp only
    rw [h]

/-! ## Where lanes are between two rounds -/

/-- In a session that is not of pixels every lane may run that is not finished. -/
theorem mask_of_stage (hstage : s.program.stage ≠ .pixel) :
    s.mask = s.lanes.map fun l => !l.isFinished := by
  unfold mask activeMask
  simp [hstage]

/-- The lanes have their numbers, and those that are not finished rest at an instruction of the entry
    function. -/
structure Settled (s : Session) (f : Function) (a : FunctionAnalysis) : Prop where
  enters : s.program.Enters s.analyses f a
  index : ∀ {j : Nat} {l : Lane}, s.lanes[j]? = some l → l.index = j
  numbered : ∀ l ∈ s.lanes, ¬ l.isFinished → l.place.Numbered f a s.program.entry
  rest : ∀ l ∈ s.lanes, ¬ l.isFinished → l.AtRest f

namespace Settled

variable {p : Program} {s₀ : Session} {f : Function} {a : FunctionAnalysis}

theorem of_start (hfresh : Fresh p s₀) (hindex : ∀ {j : Nat} {l : Lane}, s₀.lanes[j]? = some l → l.index = j)
    (he : p.Enters s₀.analyses f a) (hok : s₀.start.result = .ok states) :
    s₀.start.session.Settled f a := by
  have hlanes := lanesBy_start hok
  have hprogram : s₀.start.session.program = p := hlanes.program.trans hfresh.program
  have hentered : ∀ l ∈ s₀.start.session.lanes,
      l.place.Numbered f a p.entry ∧ (¬ l.isFinished → l.AtRest f) := by
    intro l hl
    obtain ⟨index, init, henter⟩ := hfresh.enter_of_start hok hl
    obtain ⟨a', l₁, ha', rfl, hplace⟩ := Lane.place_of_enter henter
    obtain rfl : a = a' := Option.some.inj (he.analysis.symm.trans ha')
    have hnumbered : l₁.place.Numbered f a p.entry := by
      rw [hplace]
      exact ⟨rfl, rfl, rfl⟩
    refine ⟨Lane.numbered_skipNops he hnumbered, fun hfin => ?_⟩
    rw [Lane.isFinished_skipNops] at hfin
    exact (Lane.skipNops_spec he hnumbered.function hfin).2.2
  refine ⟨?_, fun {j l} hj => ?_, fun l hl _ => hprogram ▸ (hentered l hl).1,
    fun l hl hfin => (hentered l hl).2 hfin⟩
  · rw [hprogram, hlanes.analyses]
    exact he
  · obtain ⟨l₀, hl₀, henter⟩ := hlanes.lane j l hj
    exact (Lane.index_of_enter henter).trans (hindex hl₀)

theorem round (h : s.Settled f a)
    (hok : (s.round host).result = .ok states) : (s.round host).session.Settled f a := by
  have hlanes := lanes_of_round hok
  have hrested : ∀ l ∈ (s.round host).session.lanes, ¬ l.isFinished →
      l.place.Numbered f a s.program.entry ∧ l.AtRest f := by
    intro l hl hfin
    obtain ⟨j, hj⟩ := List.getElem?_of_mem hl
    obtain ⟨l₀, hl₀, hround⟩ := hlanes.lane j l hj
    have hmem := List.mem_of_getElem? hl₀
    have hfin₀ : ¬ l₀.isFinished := fun hfin₀ => hfin (isFinished_of_lane hok hl₀ hj hfin₀)
    -- a lane that is held back stays where it rested
    split at hround
    · obtain ⟨l₁, l₂, hstep, hrefresh, rfl⟩ := hround
      exact Lane.rests_of_stepping h.enters (h.numbered l₀ hmem hfin₀) hfin₀ hstep hrefresh hfin
    · have hplace := Lane.place_of_frame hround.frame_eq
      exact ⟨hplace ▸ h.numbered l₀ hmem hfin₀, (h.rest l₀ hmem hfin₀).of_place hplace⟩
  refine ⟨?_, fun {j l} hj => ?_, fun l hl hfin => ?_, fun l hl hfin => (hrested l hl hfin).2⟩
  · rw [hlanes.program, hlanes.analyses]
    exact h.enters
  · obtain ⟨l₀, hl₀, hround⟩ := hlanes.lane j l hj
    rw [← h.index hl₀]
    split at hround
    · obtain ⟨l₁, l₂, hstep, hrefresh, rfl⟩ := hround
      rw [Lane.index_skipNops, Lane.index_of_frame hrefresh.frame_eq, Lane.index_of_stepping hstep]
    · exact Lane.index_of_frame hround.frame_eq
  · rw [hlanes.program]
    exact (hrested l hl hfin).1

/-- Between two rounds every lane that is not finished rests. -/
theorem of_reached (hfresh : Fresh p s₀) (h : Reached s₀ s) : ∃ f a, s.Settled f a := by
  obtain ⟨f, a, he⟩ := h.enters hfresh
  refine ⟨f, a, ?_⟩
  induction h with
  | started hok =>
      refine of_start hfresh (fun {j l} hj => ?_) he hok
      obtain ⟨init, rfl⟩ := hfresh.lane j l hj
      rfl
  | round _ hok ih => exact ih.round hok

end Settled

end Session

end Lockstep
