import Lockstep.Proofs.Lane.Moves
import Lockstep.Proofs.Session.Account

set_option autoImplicit false

/-! # Resources over a whole session

The steps of all lanes of a session, in the order in which they are made whatever the calls are, are moves
one after another (`Session.exists_plays`). So the host is asked once for the content of each resource, and
an access to a read-write resource sees what the stores and atomic updates of all lanes have made of it so far
(`Session.fetched_once`). -/

namespace Lockstep

namespace Session

/-! ## The moves of a session -/

/-- The step of a lane. -/
def laneMoves (s : Session) (host : Host) (index : Nat) : List Move :=
  s.lanes[index]?.toList.map fun l => { lane := l, setting := s.setting host index, world := s.world }

/-- The steps of the lanes that a mask allows, numbered from `index` on. -/
def maskMoves (s : Session) (host : Host) : (index : Nat) → List Bool → List Move
  | _, [] => []
  | index, false :: rest => s.maskMoves host (index + 1) rest
  | index, true :: rest =>
    s.laneMoves host index ++
      match (s.stepLane host index).result with
      | .error _ => []
      | .ok _ => (s.stepLane host index).session.maskMoves host (index + 1) rest

/-- The steps of rounds that are run until the reporting lane has made enough steps. -/
def roundMoves (host : Host) (stop : Nat) : (rounds : Nat) → (s : Session) → List Move
  | 0, _ => []
  | n + 1, s =>
    if s.steps ≥ stop ∨ s.isFinished then []
    else
      match s.config.maxTotalSteps.filter (·.toNat ≤ s.steps) with
      | some _ => []
      | none =>
        s.maskMoves host 0 s.mask ++
          match (s.round host).result with
          | .error _ => []
          | .ok _ => roundMoves host stop n (s.round host).session

/-- The steps of a call. The first call makes none, and neither does one after a failed call. -/
def callMoves (s : Session) (host : Host) (rounds : Nat) : List Move :=
  if s.isStarted ∧ ¬ s.isTerminated then
    roundMoves host (s.steps + s.config.stepsPerContinue.toNat) rounds s
  else []

/-- The steps of all lanes in several calls, each with its host and the number of rounds that it may take. A
    call that would take more is the last. -/
def moves (s : Session) : List (Host × Nat) → List Move
  | [] => []
  | (host, rounds) :: calls =>
    s.callMoves host rounds ++
      match s.resume host rounds with
      | none => []
      | some done => done.session.moves calls

/-- Moves lead from the shared state of a session to that of another, and all succeed if nothing has
    failed. -/
structure Plays (s : Session) (hosts : List Host) (ts : List Move) (s' : Session) (ok : Prop) : Prop where
  chain : Move.Chain s.world ts
  hosts : ∀ t ∈ ts, t.setting.host ∈ hosts
  after : s'.world = Move.after s.world ts
  succeed : ok → ∀ t ∈ ts, t.Succeeds

namespace Plays

variable {s s' s'' : Session} {hosts hosts' : List Host} {ts us : List Move} {ok ok' : Prop}

theorem nil (h : s'.world = s.world) : Plays s hosts [] s' ok where
  chain := trivial
  hosts _ ht := absurd ht List.not_mem_nil
  after := h
  succeed _ _ ht := absurd ht List.not_mem_nil

theorem append (h : Plays s hosts ts s' ok) (hok : ok) (h' : Plays s' hosts us s'' ok') :
    Plays s hosts (ts ++ us) s'' ok' where
  chain := h.chain.append (fun _ => h.succeed hok) (h.after ▸ h'.chain)
  hosts := List.forall_mem_append.2 ⟨h.hosts, h'.hosts⟩
  after := by rw [h'.after, h.after, Move.after, Move.after, Move.after, List.foldl_append]
  succeed := fun hok' => List.forall_mem_append.2 ⟨h.succeed hok, h'.succeed hok'⟩

theorem congr (h : Plays s hosts ts s' ok) (hworld : s''.world = s'.world) (hok : ok' → ok) :
    Plays s hosts ts s'' ok' :=
  ⟨h.chain, h.hosts, hworld.trans h.after, fun h' => h.succeed (hok h')⟩

theorem mono (h : Plays s hosts ts s' ok) (hsub : hosts ⊆ hosts') : Plays s hosts' ts s' ok :=
  ⟨h.chain, fun t ht => hsub (h.hosts t ht), h.after, h.succeed⟩

end Plays

variable {s : Session} {host : Host}

theorem plays_stepLane (s : Session) (host : Host) (index : Nat) :
    Plays s [host] (s.laneMoves host index) (s.stepLane host index).session
      (∃ states, (s.stepLane host index).result = .ok states) := by
  unfold laneMoves stepLane
  cases s.lanes[index]? with
  | none => exact .nil rfl
  | some l =>
      refine ⟨⟨rfl, fun h => absurd rfl h, trivial⟩, ?_, ?_, ?_⟩
      · simp [setting]
      · dsimp only
        split
        · rfl
        · split <;> rfl
      · rintro ⟨states, hok⟩ t ht
        cases List.mem_singleton.1 ht
        dsimp only at hok
        split at hok
        · cases hok
        · next state hstate => exact ⟨state, hstate⟩

theorem plays_stepLanes (s : Session) (host : Host) (index : Nat) (mask : List Bool) :
    Plays s [host] (s.maskMoves host index mask) (s.stepLanes host index mask).session
      (∃ states, (s.stepLanes host index mask).result = .ok states) := by
  induction mask generalizing s index with
  | nil => exact .nil rfl
  | cons runs rest ih =>
      cases runs with
      | false => exact ih s (index + 1)
      | true =>
          have hlane := plays_stepLane s host index
          rw [maskMoves, stepLanes]
          dsimp only
          cases hresult : (s.stepLane host index).result with
          | error fault =>
              refine (List.append_nil _).symm ▸ hlane.congr rfl ?_
              rintro ⟨_, hok⟩
              cases hok
          | ok states =>
              refine (hlane.append ⟨states, hresult⟩ (ih _ (index + 1))).congr rfl ?_
              rintro ⟨_, hok⟩
              obtain ⟨others, hothers, -⟩ := ok_of_map hok
              exact ⟨others, hothers⟩

theorem world_round (s : Session) (host : Host) :
    (s.round host).session.world = (s.stepLanes host 0 s.mask).session.world := by
  unfold round
  dsimp only
  split
  · rfl
  · split
    · rw [refresh_session]
    · show ((s.stepLanes host 0 s.mask).session.refresh s.world.memory.writes).session.world = _
      rw [refresh_session]

theorem plays_round (s : Session) (host : Host) :
    Plays s [host] (s.maskMoves host 0 s.mask) (s.round host).session
      (∃ states, (s.round host).result = .ok states) := by
  refine (plays_stepLanes s host 0 s.mask).congr (world_round s host) ?_
  rintro ⟨states, hok⟩
  exact ⟨states, (round_ok hok).1⟩

theorem plays_runUntil (host : Host) (stop rounds : Nat) (s : Session) (acc : Array StepState) :
    (∃ s', Plays s [host] (roundMoves host stop rounds s) s' False) ∧
      ∀ done, runUntil host stop rounds s acc = some done →
        Plays s [host] (roundMoves host stop rounds s) done.session (∃ states, done.result = .ok states) := by
  induction rounds generalizing s acc with
  | zero =>
      rw [roundMoves, runUntil]
      exact ⟨⟨s, .nil rfl⟩, fun done h => by cases h⟩
  | succ rounds ih =>
      have hround := plays_round s host
      rw [roundMoves, runUntil]
      split
      · exact ⟨⟨s, .nil rfl⟩, fun done h => by cases h; exact .nil rfl⟩
      cases s.config.maxTotalSteps.filter (·.toNat ≤ s.steps) with
      | some limit => exact ⟨⟨s, .nil rfl⟩, fun done h => by cases h; exact .nil rfl⟩
      | none =>
          dsimp only
          cases hresult : (s.round host).result with
          | error fault =>
              rw [List.append_nil]
              refine ⟨⟨_, hround.congr rfl False.elim⟩, fun done h => ?_⟩
              cases h
              exact hround.congr rfl fun hok => by obtain ⟨_, hok⟩ := hok; cases hok
          | ok states =>
              obtain ⟨⟨s', hplays⟩, hdone⟩ := ih (s.round host).session (acc.append states.toArray)
              exact ⟨⟨s', hround.append ⟨states, hresult⟩ hplays⟩, fun done h =>
                hround.append ⟨states, hresult⟩ (hdone done h)⟩

theorem world_start (s : Session) : s.start.session.world = s.world := by
  have hentered := enterLanes_session { s with isStarted := true } 0 s.lanes.length
  unfold start
  dsimp only
  split
  · rw [hentered]
  · show (enterLanes _ _ _).session.world = _
    rw [hentered]

theorem plays_resume (s : Session) (host : Host) (rounds : Nat) :
    (∃ s', Plays s [host] (s.callMoves host rounds) s' False) ∧
      ∀ done, s.resume host rounds = some done →
        Plays s [host] (s.callMoves host rounds) done.session (∃ states, done.result = .ok states) := by
  unfold callMoves resume run
  by_cases hterm : s.isTerminated
  · rw [if_neg fun h => h.2 hterm, if_pos hterm]
    exact ⟨⟨s, .nil rfl⟩, fun done h => by cases h; exact .nil rfl⟩
  rw [if_neg hterm]
  by_cases hstarted : s.isStarted
  · rw [if_pos ⟨hstarted, hterm⟩, if_pos hstarted]
    obtain ⟨hplays, hdone⟩ := plays_runUntil host (s.steps + s.config.stepsPerContinue.toNat) rounds s #[]
    refine ⟨hplays, fun done h => ?_⟩
    obtain ⟨done', hrun, rfl⟩ := Option.map_eq_some_iff.1 h
    have hplayed := hdone done' hrun
    cases hresult : done'.result with
    | ok states => exact hplayed.congr rfl fun _ => ⟨states, hresult⟩
    | error fault => exact hplayed.congr rfl fun hok => by obtain ⟨_, hok⟩ := hok; cases hok
  · rw [if_neg fun h => hstarted h.1, if_neg hstarted]
    refine ⟨⟨s, .nil rfl⟩, fun done h => .nil ?_⟩
    obtain ⟨done', hrun, rfl⟩ := Option.map_eq_some_iff.1 h
    cases hrun
    dsimp only
    split
    · exact world_start s
    · exact world_start s

/-- A session that is over makes no more moves. -/
theorem moves_of_isTerminated (h : s.isTerminated) (calls : List (Host × Nat)) : s.moves calls = [] := by
  induction calls with
  | nil => rfl
  | cons call calls ih =>
      obtain ⟨host, rounds⟩ := call
      rw [moves, resume_of_isTerminated h, callMoves, if_neg fun hgoes => hgoes.2 h]
      exact ih

/-- The moves of a session in several calls are moves one after another. -/
theorem exists_plays (s : Session) (calls : List (Host × Nat)) :
    ∃ s', Plays s (calls.map Prod.fst) (s.moves calls) s' False := by
  induction calls generalizing s with
  | nil => exact ⟨s, .nil rfl⟩
  | cons call calls ih =>
      obtain ⟨host, rounds⟩ := call
      obtain ⟨⟨s', hplays⟩, hdone⟩ := plays_resume s host rounds
      have hhost : [host] ⊆ ((host, rounds) :: calls).map Prod.fst := by simp
      rw [moves]
      cases hresume : s.resume host rounds with
      | none =>
          rw [List.append_nil]
          exact ⟨s', hplays.mono hhost⟩
      | some done =>
          have hplayed := (hdone done hresume).mono hhost
          cases hresult : done.result with
          | ok states =>
              obtain ⟨s'', hrest⟩ := ih done.session
              exact ⟨s'', hplayed.append ⟨states, hresult⟩ (hrest.mono (List.subset_cons_self ..))⟩
          | error fault =>
              dsimp only
              rw [moves_of_isTerminated (isTerminated_of_error hresume hresult), List.append_nil]
              exact ⟨_, hplayed.congr rfl False.elim⟩

/-! ## Resources -/

/-- Of the requests that hosts have received between two states, at most one is for the content of each
    resource, and none if the content was there. -/
def FetchedOnce (w w' : World) : Prop :=
  ∃ asked, w'.log.toList = w.log.toList ++ asked ∧
    ∀ c, asked.countP (·.content? = some c) ≤ if w.has c then 0 else 1

theorem fetchedOnce_of_fetches {w w' : World} {asked : List HostRequest} (h : w.Fetches w' asked) :
    FetchedOnce w w' :=
  ⟨asked, h.log, h.countP_le⟩

/-- Whatever calls are made to a session and whatever the hosts answer, the content of each resource is asked
    for at most once, and not at all if it was there from the start. A step that makes an access to a
    read-write resource performs it on what the resource's first content has become by the accesses of all
    steps of all lanes before it. -/
theorem fetched_once (s : Session) :
    (∀ s' results, Called s s' results → FetchedOnce s.world s'.world) ∧
    ∀ calls past t rest, s.moves calls = past ++ t :: rest →
      FetchedOnce s.world t.left ∧
      ∀ i op h o, t.access? = some (i, op, h) → h.ref.cls = .uav → t.outcome i = .ok o →
        ∃ origin seen e left, s.world.Origin (calls.map Prod.fst) h.ref.slot t.left origin ∧
          Move.Replays h.ref.slot past origin seen ∧ (t.world.uav t.setting.host h.ref.slot).1 = seen ∧
          t.lane.Performs i h seen op e left ∧ o = .effect e ∧ t.left.uavs.get? h.ref.slot = some left := by
  refine ⟨fun s' results h => ?_, fun calls past t rest hsplit => ?_⟩
  · obtain ⟨asked, hfetches⟩ : ∃ asked, s.world.Fetches s'.world asked := by
      induction h with
      | fresh => exact ⟨[], .refl _⟩
      | call _ hcall ih =>
          obtain ⟨_, hbefore⟩ := ih
          have hplayed := (plays_resume _ _ _).2 _ hcall
          obtain ⟨_, hafter⟩ := hplayed.chain.fetches
          rw [← hplayed.after] at hafter
          exact ⟨_, hbefore.trans hafter⟩
    exact fetchedOnce_of_fetches hfetches
  · obtain ⟨_, hplays⟩ := s.exists_plays calls
    have hchain := hplays.chain
    have hhosts := hplays.hosts
    rw [hsplit] at hchain hhosts
    obtain ⟨hpast, hok, hworld⟩ := hchain.split
    refine ⟨?_, fun i op h o hnext hcls ho => ?_⟩
    · obtain ⟨_, hbefore⟩ := hpast.fetches
      obtain ⟨_, hstep⟩ := Lane.fetches_of_step t.lane t.setting t.world
      rw [← hworld] at hbefore
      exact fetchedOnce_of_fetches (hbefore.trans hstep)
    · refine hchain.access (fun u hu => hhosts u ?_) hnext hcls ho
      exact (List.mem_append.1 hu).elim (List.mem_append_left _) fun hu =>
        List.mem_append_right _ (List.mem_singleton.1 hu ▸ List.mem_cons_self)

/-- Adds five to the first number of a buffer, stores what that was as the second number, and loads it. -/
def addStoreLoad : Program :=
  { stage := .compute
    resources := [{ name := "numbers", cls := .uav, kind := .typedBuffer }]
    functions := #[{
      name := "addStoreLoad"
      blocks := #[{}]
      instrs := #[
        { op := .call, ty := .handle, result := some ⟨0⟩, callee := some (.intrinsic .createHandle),
          args := [.const (.int 32 1), .const (.int 32 0), .const (.int 32 0)] },
        { op := .call, ty := .int 32, result := some ⟨1⟩, callee := some (.intrinsic .atomicBinOp),
          args := [.ref ⟨0⟩, .const (.int 32 0), .const (.int 32 0), .const (.int 32 0), .const (.int 32 0),
            .const (.int 32 5)] },
        { op := .call, callee := some (.intrinsic .bufferStore),
          args := [.ref ⟨0⟩, .const (.int 32 1), .const (.int 32 0), .ref ⟨1⟩] },
        { op := .call, ty := .struct "" [.int 32, .int 32], result := some ⟨2⟩,
          callee := some (.intrinsic .bufferLoad), args := [.ref ⟨0⟩, .const (.int 32 1), .const (.int 32 0)] },
        { op := .ret }] }]
    idCount := 3 }

/-- A host with a buffer of two numbers. -/
def twoNumbers : Host :=
  .withUav { info := { numElements := 2, format := .new 4 1 .uInt }, data := [10, 0, 0, 0, 3, 0, 0, 0] }

/-- What is assigned. -/
def assigned? : Outcome → Option Variable
  | .effect (.assign _ v _) => some v
  | _ => none

/-- The first of two lanes loads the number that the second has stored, which is the first number of the buffer with the
    five that the first lane has added to it. -/
theorem addStoreLoad_sees_store :
    ∃ (s₀ : Session) (past : List Move) (t : Move) (rest : List Move) (i : Instr) (op : Intrinsic) (h : Handle)
      (o : Outcome) (v : Variable) (origin seen left : Snapshot) (e : Effect),
      Session.new addStoreLoad {} {} [{}, {}] 0 { stepsPerContinue := 3 } = .ok s₀ ∧
      s₀.moves [(twoNumbers, 1), (twoNumbers, 4), (twoNumbers, 4)] = past ++ t :: rest ∧ past.length = 6 ∧
      t.access? = some (i, op, h) ∧ t.outcome i = .ok o ∧ assigned? o = some v ∧ v.get 0 = 15 ∧
      FetchedOnce s₀.world t.left ∧
      s₀.world.Origin [twoNumbers, twoNumbers, twoNumbers] h.ref.slot t.left origin ∧
      origin.data = [10, 0, 0, 0, 3, 0, 0, 0] ∧ Move.Replays h.ref.slot past origin seen ∧
      seen.data = [20, 0, 0, 0, 15, 0, 0, 0] ∧ t.lane.Performs i h seen op e left ∧ o = .effect e := by
  have h : ∃ s₀, Session.new addStoreLoad {} {} [{}, {}] 0 { stepsPerContinue := 3 } = .ok s₀ ∧
      (s₀.world.uavs.get? (.ofRegister 0 0)).isNone ∧
      ∃ t, (s₀.moves [(twoNumbers, 1), (twoNumbers, 4), (twoNumbers, 4)])[6]? = some t ∧
      ∃ x, t.access? = some x ∧ (x.2.2.ref.cls = .uav ∧ x.2.2.ref.slot = .ofRegister 0 0 ∧
        (t.world.uav t.setting.host (.ofRegister 0 0)).1.data = [20, 0, 0, 0, 15, 0, 0, 0] ∧
        ∃ o, t.outcome x.1 = .ok o ∧ ∃ v, assigned? o = some v ∧ v.get 0 = 15) := by
    decide +kernel
  obtain ⟨s₀, hnew, hnone, t, ht, ⟨i, op, h⟩, hnext, hcls, hslot, hdata, o, ho, v, hv, hbits⟩ := h
  obtain ⟨hlt, ht⟩ := List.getElem?_eq_some_iff.1 ht
  have hsplit := (List.take_append_drop 6
    (s₀.moves [(twoNumbers, 1), (twoNumbers, 4), (twoNumbers, 4)])).symm
  rw [List.drop_eq_getElem_cons hlt, ht] at hsplit
  obtain ⟨hfetched, hsees⟩ := (fetched_once s₀).2 _ _ _ _ hsplit
  obtain ⟨origin, seen, e, left, horigin, hreplays, hseen, hperforms, heffect, -⟩ := hsees i op h o hnext hcls ho
  dsimp only at hslot
  rw [hslot] at hseen
  refine ⟨s₀, _, t, _, i, op, h, o, v, origin, seen, left, e, hnew, hsplit, by simp; omega, hnext, ho, hv, hbits,
    hfetched, horigin, ?_, hreplays, hseen ▸ hdata, hperforms, heffect⟩
  rw [hslot] at horigin
  cases horigin with
  | there hs =>
      rw [hs] at hnone
      cases hnone
  | @fetched host _ _ hhost _ _ =>
      obtain rfl : host = twoNumbers := by simpa using hhost
      rfl

end Session

end Lockstep
