import Lockstep.Host.Unbound
import Lockstep.Proofs.Lane.Apart
import Lockstep.Proofs.Lane.Barrier
import Lockstep.Proofs.Session.Turns

set_option autoImplicit false

/-! # The verdict of a barrier

When a lane has its turn at a barrier, the lanes before it have already stepped. They are still taken
to be where they were when the round began, unless they have ended in their turns: those the barrier
does not count (`Session.Settled.fails_at_turn_iff`). So the verdict of a round can be told from the
lanes as they are when it begins, and as long as none of them is about to end it does not depend on
the order in which they step (`Session.barrier_verdict`); otherwise it does
(`Session.barrierOfEvenLanes_depends_on_order`). -/

namespace Lockstep

/-- With a lane that is not finished at hand, lanes are at different places when one of them is
    elsewhere. -/
theorem diverged_iff_of_mem {lanes : List Lane} {l : Lane} (hl : l ∈ lanes) (hfin : ¬ l.isFinished) :
    diverged lanes ↔ ∃ m ∈ lanes, ¬ m.isFinished ∧ m.position ≠ l.position := by
  rw [diverged_iff]
  constructor
  · rintro ⟨m, hm, m', hm', hmfin, hmfin', hne⟩
    by_cases hml : m.position = l.position
    · exact ⟨m', hm', hmfin', fun h => hne (hml.trans h.symm)⟩
    · exact ⟨m, hm, hmfin, hml⟩
  · rintro ⟨m, hm, hmfin, hne⟩
    exact ⟨m, hm, l, hl, hmfin, hfin, hne⟩

namespace Session

variable {s : Session} {host : Host} {f : Function} {a : FunctionAnalysis} {k : Nat} {l : Lane}

/-! ## What a barrier counts -/

/-- What the barrier at the turn of lane `k` counts: a lane that was not finished when the round began,
    and has not had a turn in which it ends. -/
def CountsAt (s : Session) (k j : Nat) (l : Lane) : Prop :=
  s.lanes[j]? = some l ∧ ¬ l.isFinished ∧ ¬ (j < k ∧ l.AtExit s.program s.analyses)

/-- Two of the lanes that the barrier at the turn of lane `k` counts were at different places when the
    round began. -/
def PartedAt (s : Session) (k : Nat) : Prop :=
  ∃ j l j' l', s.CountsAt k j l ∧ s.CountsAt k j' l' ∧ l.position ≠ l'.position

theorem partedAt_iff (hl : s.lanes[k]? = some l) (hfin : ¬ l.isFinished) :
    s.PartedAt k ↔ ∃ j m, s.CountsAt k j m ∧ m.position ≠ l.position := by
  constructor
  · rintro ⟨j, m, j', m', hm, hm', hne⟩
    by_cases hml : m.position = l.position
    · exact ⟨j', m', hm', fun h => hne (hml.trans h.symm)⟩
    · exact ⟨j, m, hm, hml⟩
  · rintro ⟨j, m, hm, hne⟩
    exact ⟨j, m, k, l, hm, ⟨hl, hfin, fun h => absurd h.1 (Nat.lt_irrefl k)⟩, hne⟩

/-- No instruction of the round fails, except that barriers may find lanes at different places. -/
def OnlyBarriersFail (s : Session) (host : Host) : Prop :=
  ∀ k < s.lanes.length, ∀ l ∈ s.lanes[k]?, s.HasTurn host k →
    (∃ states, (s.turn host k).result = .ok states) ∨
      ((s.turn host k).result = .error (.diverged .barrier) ∧
        ∃ next, l.nextInstr s.program s.analyses = .ok next ∧ next.2.intrinsic? = some .barrier)

instance (s : Session) (host : Host) : Decidable (s.OnlyBarriersFail host) :=
  inferInstanceAs (Decidable (∀ k < s.lanes.length, ∀ l ∈ s.lanes[k]?, _))

theorem OnlyBarriersFail.of_turn {fault : Fault} (h : s.OnlyBarriersFail host)
    (hk : s.HasTurn host k) (hl : s.lanes[k]? = some l) (hturn : (s.turn host k).result = .error fault) :
    fault = .diverged .barrier ∧
      ∃ next, l.nextInstr s.program s.analyses = .ok next ∧ next.2.intrinsic? = some .barrier := by
  rcases h k (List.getElem?_eq_some_iff.1 hl).1 l hl hk with ⟨states, hok⟩ | ⟨hfault, hnext⟩
  · rw [hok] at hturn
    cases hturn
  · rw [hfault] at hturn
    cases hturn
    exact ⟨rfl, hnext⟩

/-! ## The turn of a lane at a barrier -/

namespace Settled

/-- Lanes at rest are at one place when they say that they are at one instruction. -/
theorem position_eq_iff (h : s.Settled f a) {l l' : Lane} (hl : l ∈ s.lanes) (hl' : l' ∈ s.lanes)
    (hfin : ¬ l.isFinished) (hfin' : ¬ l'.isFinished) :
    l.position = l'.position ↔ l.activeInstr = l'.activeInstr := by
  refine ⟨fun heq => congrArg Prod.snd heq, fun heq => ?_⟩
  have hnumbered := h.numbered l hl hfin
  have hnumbered' := h.numbered l' hl' hfin'
  refine (Lane.position_eq_iff hnumbered hnumbered' (h.rest l hl hfin) (h.rest l' hl' hfin')).2 ?_
  have hglobal : l.globalInstr = a.offset + l.instr := hnumbered.globalInstr
  have hglobal' : l'.globalInstr = a.offset + l'.instr := hnumbered'.globalInstr
  have hactive := (h.rest l hl hfin).active
  have hactive' := (h.rest l' hl' hfin').active
  omega

/-- A lane that has stepped and is not finished is where a lane that rests within a block is, exactly if
    it was before it stepped. -/
theorem position_of_stepping (h : s.Settled f a) (hl : l ∈ s.lanes) (hfin : ¬ l.isFinished) {i : Instr}
    (hi : f.instrs[l.instr]? = some i) (ht : ¬ i.isTerminator) {m m' : Lane} (hm : m ∈ s.lanes)
    (hmfin : ¬ m.isFinished) (hstep : Lane.Stepping s.program s.analyses m m')
    (hmfin' : ¬ m'.isFinished) : m'.position = l.position ↔ m.position = l.position := by
  obtain ⟨setting, w, state, hp, has, hok, rfl⟩ := hstep
  obtain ⟨i', -, hi', hnext⟩ :=
    Lane.next_of_step h.enters (h.numbered m hm hmfin).function hmfin hp has hok
  generalize hq : (m.step setting w).lane.place = q at hnext
  cases hnext with
  | within =>
      have hposition : (m.step setting w).lane.position = m.position :=
        Prod.ext (congrArg Place.block hq) (congrArg Place.activeInstr hq)
      rw [hposition]
  | jump b start ht' hb hstart =>
      have hactive : (m.step setting w).lane.activeInstr = m.activeInstr :=
        congrArg Place.activeInstr hq
      constructor
      · intro hposition
        rw [h.position_eq_iff hm hl hmfin hfin, ← hactive]
        exact congrArg Prod.snd hposition
      · intro hposition
        -- both were at one instruction, and that does not jump
        have hinstr : m.instr = l.instr :=
          (Lane.position_eq_iff (h.numbered m hm hmfin) (h.numbered l hl hfin)
            (h.rest m hm hmfin) (h.rest l hl hfin)).1 hposition
        rw [hinstr, hi] at hi'
        cases hi'
        exact absurd ht' ht
  | stop _ hstop => exact absurd (Lane.isFinished_of_stop (hq ▸ hstop)) hmfin'

/-- At the turn of a lane within a block, the lanes that are not finished are those that count, and
    they are where it is exactly if they were when the round began. -/
theorem at_turn (hstage : s.program.stage ≠ .pixel) (h : s.Settled f a) (hk : s.HasTurn host k)
    (hl : s.lanes[k]? = some l) (hfin : ¬ l.isFinished) {i : Instr}
    (hi : f.instrs[l.instr]? = some i) (ht : ¬ i.isTerminator) {j : Nat} {m m' : Lane}
    (hm : s.lanes[j]? = some m)
    (hm' : (s.stepLanes host 0 (s.mask.take k)).session.lanes[j]? = some m') :
    (¬ m'.isFinished ↔ s.CountsAt k j m) ∧
      (¬ m'.isFinished → (m'.position = l.position ↔ m.position = l.position)) := by
  obtain ⟨-, states, hok⟩ := hk
  obtain ⟨m₁, hm₁, hturn⟩ := (lanesBy_stepLanes hok).lane j m' hm'
  obtain rfl : m = m₁ := Option.some.inj (hm.symm.trans hm₁)
  have hmask : s.mask[j]? = some (!m.isFinished) := by
    rw [mask_of_stage hstage, List.getElem?_map, hm]
    rfl
  by_cases hmfin : m.isFinished
  · rw [if_neg (by rw [Nat.sub_zero, List.getElem?_take, hmask]; simp [hmfin])] at hturn
    subst hturn
    exact ⟨⟨fun hno => absurd hmfin hno, fun hcounts => absurd hmfin hcounts.2.1⟩,
      fun hno => absurd hmfin hno⟩
  by_cases hj : j < k
  -- a lane that has had its turn has ended in it, or it goes on
  · rw [if_pos ⟨Nat.zero_le j, by rw [Nat.sub_zero, List.getElem?_take_of_lt hj, hmask]; simp [hmfin]⟩]
      at hturn
    refine ⟨?_, h.position_of_stepping (List.mem_of_getElem? hl) hfin hi ht (List.mem_of_getElem? hm)
      hmfin hturn⟩
    obtain ⟨setting, w, state, hp, has, hstep, rfl⟩ := hturn
    rw [Lane.isFinished_of_step hmfin hstep, hp, has]
    exact ⟨fun hno => ⟨hm, hmfin, fun hexit => hno hexit.2⟩,
      fun hcounts hexit => hcounts.2.2 ⟨hj, hexit⟩⟩
  · rw [if_neg (by simp [hj])] at hturn
    subst hturn
    exact ⟨⟨fun _ => ⟨hm, hmfin, fun hexit => hj hexit.1⟩, fun _ => hmfin⟩, fun _ => Iff.rfl⟩

/-- The group that a lane sees at its turn at a barrier has diverged when lanes that count were at
    different places. -/
theorem diverged_at_turn_iff (hstage : s.program.stage ≠ .pixel) (h : s.Settled f a)
    (hk : s.HasTurn host k) (hl : s.lanes[k]? = some l) (hfin : ¬ l.isFinished) {i : Instr}
    (hi : f.instrs[l.instr]? = some i) (ht : ¬ i.isTerminator) :
    diverged (((s.stepLanes host 0 (s.mask.take k)).session.setting host k).groupWith l.advanced) ↔
      s.PartedAt k := by
  obtain ⟨-, states, hok⟩ := id hk
  have hlanes := lanesBy_stepLanes hok
  have hself := (getElem?_stepLanes_take hok).trans hl
  have hlt := (List.getElem?_eq_some_iff.1 hself).1
  have hmem : l.advanced ∈ (s.stepLanes host 0 (s.mask.take k)).session.lanes.set k l.advanced :=
    List.mem_set hlt l.advanced
  have hfin' : ¬ l.advanced.isFinished := hfin
  rw [partedAt_iff hl hfin]
  show diverged ((s.stepLanes host 0 (s.mask.take k)).session.lanes.set l.index l.advanced) ↔ _
  rw [h.index hl, diverged_iff_of_mem hmem hfin']
  constructor
  · rintro ⟨m', hm', hmfin', hne⟩
    obtain ⟨j, hj⟩ := List.getElem?_of_mem hm'
    rw [List.getElem?_set] at hj
    split at hj
    -- the lane itself is where it is
    · rw [← Option.some.inj hj] at hne
      exact absurd rfl hne
    · obtain ⟨m, hm, -⟩ := hlanes.lane j m' hj
      obtain ⟨hcounts, hposition⟩ := h.at_turn hstage hk hl hfin hi ht hm hj
      exact ⟨j, m, hcounts.1 hmfin', fun heq => hne ((hposition hmfin').2 heq)⟩
  · rintro ⟨j, m, hcounts, hne⟩
    have hj : j < (s.stepLanes host 0 (s.mask.take k)).session.lanes.length := by
      rw [hlanes.length]
      exact (List.getElem?_eq_some_iff.1 hcounts.1).1
    have hget := List.getElem?_eq_getElem hj
    obtain ⟨hunfinished, hposition⟩ := h.at_turn hstage hk hl hfin hi ht hcounts.1 hget
    have hmfin' := hunfinished.2 hcounts
    have hjk : k ≠ j := by
      rintro rfl
      exact hne (by rw [Option.some.inj (hcounts.1.symm.trans hl)])
    refine ⟨_, List.mem_of_getElem? (i := j) ?_, hmfin', fun heq => hne ((hposition hmfin').1 heq)⟩
    rw [List.getElem?_set_ne hjk, hget]

/-- A lane at its turn at a barrier fails for the places of the lanes exactly when the barrier is one of
    threads and lanes that count were at different places. -/
theorem fails_at_turn_iff (hstage : s.program.stage ≠ .pixel) (h : s.Settled f a)
    (hk : s.HasTurn host k) (hl : s.lanes[k]? = some l) {next : FunctionAnalysis × Instr}
    (hnext : l.nextInstr s.program s.analyses = .ok next) (hop : next.2.intrinsic? = some .barrier) :
    (s.turn host k).result = .error (.diverged .barrier) ↔ l.Syncs next.2 ∧ s.PartedAt k := by
  obtain ⟨a', i⟩ := next
  obtain ⟨l', hl', hfin⟩ := running_of_mask hk.1
  obtain rfl : l = l' := Option.some.inj (hl.symm.trans hl')
  have hi : f.instrs[l.instr]? = some i :=
    (Lane.instr_of_nextInstr h.enters (h.numbered l (List.mem_of_getElem? hl) hfin).function hnext).2
  rw [← h.diverged_at_turn_iff hstage hk hl hfin hi (i.not_isTerminator_of_intrinsic? hop)]
  obtain ⟨-, states, hok⟩ := hk
  have hlanes := lanesBy_stepLanes hok
  have hself := (getElem?_stepLanes_take hok).trans hl
  unfold turn
  generalize (s.stepLanes host 0 (s.mask.take k)).session = t at hself hlanes
  have hnext' : l.nextInstr (t.setting host k).program (t.setting host k).analyses = .ok (a', i) := by
    show l.nextInstr t.program t.analyses = _
    rw [hlanes.program, hlanes.analyses]
    exact hnext
  rw [← Lane.fails_at_barrier_iff (w := t.world) hfin hnext' hop]
  exact stepLane_error_iff hself

end Settled

/-! ## The verdict -/

/-- A round fails for the places of the lanes exactly when one of them is at a barrier of threads, and
    lanes that this barrier counts are at different places. -/
theorem verdict_iff (hstage : s.program.stage ≠ .pixel) (h : s.Settled f a)
    (honly : s.OnlyBarriersFail host) :
    (s.round host).result = .error (.diverged .barrier) ↔
      ∃ k l, s.lanes[k]? = some l ∧ ¬ l.isFinished ∧ l.AtBarrier s.program s.analyses ∧
        s.PartedAt k := by
  rw [round_diverged_iff]
  constructor
  · intro hfault
    obtain ⟨k, hk, hturn⟩ := hasTurn_of_error hfault
    obtain ⟨l, hl, hfin⟩ := running_of_mask hk.1
    obtain ⟨-, next, hnext, hop⟩ := honly.of_turn hk hl hturn
    obtain ⟨hsyncs, hparted⟩ := (h.fails_at_turn_iff hstage hk hl hnext hop).1 hturn
    exact ⟨k, l, hl, hfin, ⟨next, hnext, hsyncs⟩, hparted⟩
  · rintro ⟨k, l, hl, hfin, ⟨next, hnext, hsyncs⟩, hparted⟩
    cases hround : (s.stepLanes host 0 s.mask).result with
    | error fault =>
        obtain ⟨k', hk', hturn⟩ := hasTurn_of_error hround
        obtain ⟨l', hl', -⟩ := running_of_mask hk'.1
        rw [(honly.of_turn hk' hl' hturn).1]
    | ok states =>
        -- then the lane at the barrier would have had its turn without a fault
        have hmask : s.mask[k]? = some true := by
          rw [mask_of_stage hstage, List.getElem?_map, hl]
          simp [hfin]
        obtain ⟨hk, _, hturn⟩ := hasTurn_of_ok hround hmask
        have hfault := (h.fails_at_turn_iff hstage hk hl hnext hsyncs.1).2 ⟨hsyncs, hparted⟩
        rw [hturn] at hfault
        cases hfault

/-- When no lane is about to end, it takes a lane at a barrier of threads, and lanes at different
    places. -/
theorem verdict_iff_of_no_exit (hstage : s.program.stage ≠ .pixel) (h : s.Settled f a)
    (honly : s.OnlyBarriersFail host)
    (hno : ∀ l ∈ s.lanes, ¬ l.isFinished → ¬ l.AtExit s.program s.analyses) :
    (s.round host).result = .error (.diverged .barrier) ↔
      (∃ l ∈ s.lanes, ¬ l.isFinished ∧ l.AtBarrier s.program s.analyses) ∧ diverged s.lanes := by
  rw [verdict_iff hstage h honly]
  constructor
  · rintro ⟨k, l, hl, hfin, hat, j, m, j', m', hm, hm', hne⟩
    refine ⟨⟨l, List.mem_of_getElem? hl, hfin, hat⟩, (diverged_iff _).2 ?_⟩
    exact ⟨m, List.mem_of_getElem? hm.1, m', List.mem_of_getElem? hm'.1, hm.2.1, hm'.2.1, hne⟩
  · rintro ⟨⟨l, hl, hfin, hat⟩, hdiv⟩
    obtain ⟨m, hm, m', hm', hmfin, hmfin', hne⟩ := (diverged_iff _).1 hdiv
    obtain ⟨k, hk⟩ := List.getElem?_of_mem hl
    obtain ⟨j, hj⟩ := List.getElem?_of_mem hm
    obtain ⟨j', hj'⟩ := List.getElem?_of_mem hm'
    exact ⟨k, l, hk, hfin, hat, j, m, j', m', ⟨hj, hmfin, fun hexit => hno m hm hmfin hexit.2⟩,
      ⟨hj', hmfin', fun hexit => hno m' hm' hmfin' hexit.2⟩, hne⟩

/-! ## Other orders -/

/-- A session whose lanes are put in another order, each under the number of its new place. -/
def reorder (s : Session) (ls : List Lane) (active : Nat) : Session :=
  { s with lanes := ls.mapIdx fun k l => l.renumbered k, active }

theorem getElem?_reorder (s : Session) (ls : List Lane) (n k : Nat) :
    (s.reorder ls n).lanes[k]? = ls[k]?.map fun l => l.renumbered k :=
  List.getElem?_mapIdx

theorem mem_reorder {ls : List Lane} {n : Nat} (hl : l ∈ (s.reorder ls n).lanes) :
    ∃ l₀ ∈ ls, ∃ k, l = l₀.renumbered k := by
  obtain ⟨k, hk⟩ := List.getElem?_of_mem hl
  rw [getElem?_reorder, Option.map_eq_some_iff] at hk
  obtain ⟨l₀, hl₀, rfl⟩ := hk
  exact ⟨l₀, List.mem_of_getElem? hl₀, k, rfl⟩

theorem exists_mem_reorder {ls : List Lane} (n : Nat) (hl : l ∈ ls) :
    ∃ k, l.renumbered k ∈ (s.reorder ls n).lanes := by
  obtain ⟨k, hk⟩ := List.getElem?_of_mem hl
  refine ⟨k, List.mem_of_getElem? (i := k) ?_⟩
  rw [getElem?_reorder, hk]
  rfl

theorem diverged_reorder {ls : List Lane} {n : Nat} (hls : ls.Perm s.lanes) :
    diverged (s.reorder ls n).lanes ↔ diverged s.lanes := by
  rw [diverged_iff, diverged_iff]
  constructor
  · rintro ⟨_, hl, _, hl', hfin, hfin', hne⟩
    obtain ⟨l, hmem, _, rfl⟩ := mem_reorder hl
    obtain ⟨l', hmem', _, rfl⟩ := mem_reorder hl'
    exact ⟨l, hls.subset hmem, l', hls.subset hmem', hfin, hfin', hne⟩
  · rintro ⟨l, hl, l', hl', hfin, hfin', hne⟩
    obtain ⟨k, hk⟩ := exists_mem_reorder (s := s) n (hls.symm.subset hl)
    obtain ⟨k', hk'⟩ := exists_mem_reorder (s := s) n (hls.symm.subset hl')
    exact ⟨_, hk, _, hk', hfin, hfin', hne⟩

/-- The number of a lane does not matter for what is next. -/
theorem nextInstr_renumbered_iff {p : Program} {as : Analyses} {next : FunctionAnalysis × Instr}
    (n : Nat) : (l.renumbered n).nextInstr p as = .ok next ↔ l.nextInstr p as = .ok next :=
  ⟨fun h => Lane.nextInstr_renumbered h l.index, fun h => Lane.nextInstr_renumbered h n⟩

theorem atBarrier_renumbered {p : Program} {as : Analyses} (n : Nat) :
    (l.renumbered n).AtBarrier p as ↔ l.AtBarrier p as :=
  exists_congr fun _ => and_congr_left' (nextInstr_renumbered_iff n)

theorem atExit_renumbered {p : Program} {as : Analyses} (n : Nat) :
    (l.renumbered n).AtExit p as ↔ l.AtExit p as :=
  exists_congr fun _ => and_congr_left' (nextInstr_renumbered_iff n)

theorem Settled.reorder (h : s.Settled f a) {ls : List Lane} (hls : ls.Perm s.lanes) (n : Nat) :
    (s.reorder ls n).Settled f a := by
  refine ⟨h.enters, fun {j l} hl => ?_, fun l hl hfin => ?_, fun l hl hfin => ?_⟩
  · rw [getElem?_reorder, Option.map_eq_some_iff] at hl
    obtain ⟨l₀, -, rfl⟩ := hl
    rfl
  · obtain ⟨l₀, hmem, k, rfl⟩ := mem_reorder hl
    obtain ⟨hfunction, hblock, hglobal⟩ := h.numbered l₀ (hls.subset hmem) hfin
    exact ⟨hfunction, hblock, hglobal⟩
  · obtain ⟨l₀, hmem, k, rfl⟩ := mem_reorder hl
    obtain ⟨hactive, hinstr⟩ := h.rest l₀ (hls.subset hmem) hfin
    exact ⟨hactive, hinstr⟩

/-- The order that the lanes have is one of those. -/
theorem Settled.reorder_self (h : s.Settled f a) : s.reorder s.lanes s.active = s := by
  have hlanes : s.lanes.mapIdx (fun k l => l.renumbered k) = s.lanes := by
    refine List.ext_getElem? fun k => ?_
    rw [List.getElem?_mapIdx]
    cases hl : s.lanes[k]? with
    | none => rfl
    | some l =>
        have hindex := h.index hl
        subst hindex
        rfl
  unfold Session.reorder
  rw [hlanes]

/-- The verdict of a round of a session that is not of pixels, with its lanes in any order, if no
    instruction fails but barriers that find lanes at different places. A barrier of threads fails
    exactly when two of the lanes that it counts were at different places when the round began, and the
    round fails exactly when there is such a barrier. As long as no lane is about to end, all lanes that
    are not finished count, and the verdict is the same in every order. -/
theorem barrier_verdict {p : Program} {b : Bindings} {w : World} {inits : List LaneInit}
    {active : Nat} {config : Config} {s₀ s : Session}
    (hnew : Session.new p b w inits active config = .ok s₀) (hstage : p.stage ≠ .pixel)
    (hs : s₀.Reached s) {ls : List Lane} (hls : ls.Perm s.lanes) {n : Nat} {host : Host}
    (honly : (s.reorder ls n).OnlyBarriersFail host) :
    s.reorder s.lanes s.active = s ∧
      (∀ k l, (s.reorder ls n).HasTurn host k → (s.reorder ls n).lanes[k]? = some l →
        l.AtBarrier p s.analyses →
        (((s.reorder ls n).turn host k).result = .error (.diverged .barrier) ↔
          (s.reorder ls n).PartedAt k)) ∧
      (((s.reorder ls n).round host).result = .error (.diverged .barrier) ↔
        ∃ k l, (s.reorder ls n).lanes[k]? = some l ∧ ¬ l.isFinished ∧ l.AtBarrier p s.analyses ∧
          (s.reorder ls n).PartedAt k) ∧
      ((∀ l ∈ s.lanes, ¬ l.isFinished → ¬ l.AtExit p s.analyses) →
        (((s.reorder ls n).round host).result = .error (.diverged .barrier) ↔
          (∃ l ∈ s.lanes, ¬ l.isFinished ∧ l.AtBarrier p s.analyses) ∧ diverged s.lanes) ∧
        ∀ (ls' : List Lane) (n' : Nat) (host' : Host), ls'.Perm s.lanes →
          (s.reorder ls' n').OnlyBarriersFail host' →
          (((s.reorder ls n).round host).result = .error (.diverged .barrier) ↔
            ((s.reorder ls' n').round host').result = .error (.diverged .barrier))) := by
  obtain ⟨f, a, hsettled⟩ := Settled.of_reached (fresh_of_new hnew) hs
  have hprogram : s.program = p := hs.program_eq.trans (fresh_of_new hnew).program
  subst hprogram
  have hsettled' := hsettled.reorder hls n
  have hfree : (∀ l ∈ s.lanes, ¬ l.isFinished → ¬ l.AtExit s.program s.analyses) →
      ∀ (ls : List Lane) (n : Nat) (host : Host), ls.Perm s.lanes →
        (s.reorder ls n).OnlyBarriersFail host →
        (((s.reorder ls n).round host).result = .error (.diverged .barrier) ↔
          (∃ l ∈ s.lanes, ¬ l.isFinished ∧ l.AtBarrier s.program s.analyses) ∧
            diverged s.lanes) := by
    intro hno ls n host hls honly
    rw [verdict_iff_of_no_exit (s := s.reorder ls n) hstage (hsettled.reorder hls n) honly ?_, diverged_reorder hls]
    · refine and_congr_left' ⟨?_, ?_⟩
      · rintro ⟨_, hl, hfin, hat⟩
        obtain ⟨l, hmem, k, rfl⟩ := mem_reorder hl
        exact ⟨l, hls.subset hmem, hfin, (atBarrier_renumbered k).1 hat⟩
      · rintro ⟨l, hl, hfin, hat⟩
        obtain ⟨k, hk⟩ := exists_mem_reorder (s := s) n (hls.symm.subset hl)
        exact ⟨_, hk, hfin, (atBarrier_renumbered k).2 hat⟩
    · intro l hl hfin hexit
      obtain ⟨l, hmem, k, rfl⟩ := mem_reorder hl
      exact hno l (hls.subset hmem) hfin ((atExit_renumbered k).1 hexit)
  refine ⟨hsettled.reorder_self, ?_, verdict_iff hstage hsettled' honly, fun hno => ?_⟩
  · rintro k l hk hl ⟨next, hnext, hsyncs⟩
    rw [hsettled'.fails_at_turn_iff (s := s.reorder ls n) hstage hk hl hnext hsyncs.1]
    exact and_iff_right hsyncs
  · have hverdict := hfree hno ls n host hls honly
    exact ⟨hverdict, fun ls' n' host' hls' honly' =>
      hverdict.trans (hfree hno ls' n' host' hls' honly').symm⟩

/-- A barrier of the threads of the group. -/
def syncThreads : Instr :=
  { op := .call, args := [.const (.int 32 1)], callee := some (.intrinsic .barrier) }

/-- A program in which the lanes with an odd number do something else and return, and the others come to
    a barrier. -/
def barrierOfEvenLanes (odd : List Instr) : Program :=
  { stage := .compute
    functions := #[{
      name := "barrierOfEvenLanes"
      blocks := #[{}, { preds := [0] }, { preds := [0] }]
      instrs := #[
        { op := .call, ty := .int 32, result := some ⟨0⟩,
          callee := some (.intrinsic .flattenedThreadIdInGroup) },
        { op := .br, args := [.block 1, .block 2, .ref ⟨0⟩] }] ++ odd.toArray ++ #[
        { op := .ret },
        syncThreads,
        { op := .ret }] }]
    idCount := 1 }

/-- When the odd lane comes to a barrier too, each finds the other elsewhere, in either order. -/
theorem barrierOfEvenLanes_fails_in_any_order :
    ∃ s₀ s, Session.new (barrierOfEvenLanes [syncThreads]) {} {} [.numbered 1, .numbered 0] 0 {} = .ok s₀ ∧
      s₀.Reached s ∧ (s.round .unbound).result = .error (.diverged .barrier) ∧
      ((s.reorder s.lanes.reverse 1).round .unbound).result = .error (.diverged .barrier) := by
  have h : ∃ s₀, Session.new (barrierOfEvenLanes [syncThreads]) {} {} [.numbered 1, .numbered 0] 0 {} = .ok s₀ ∧
      ∃ states, s₀.start.result = .ok states ∧ ∃ s, s₀.start.session.advance .unbound 2 = .ok s ∧
        (s.reorder s.lanes s.active).OnlyBarriersFail .unbound ∧
        (s.reorder s.lanes.reverse 1).OnlyBarriersFail .unbound ∧
        (∀ l ∈ s.lanes, ¬ l.isFinished → ¬ l.AtExit (barrierOfEvenLanes [syncThreads]) s.analyses) ∧
        (∃ l ∈ s.lanes, ¬ l.isFinished ∧ l.AtBarrier (barrierOfEvenLanes [syncThreads]) s.analyses) ∧
        diverged s.lanes := by
    decide +kernel
  obtain ⟨s₀, hnew, states, hstart, s, hs, honly, honly', hno, hat, hdiv⟩ := h
  have hreached : s₀.Reached s := (Reached.started hstart).advance hs
  obtain ⟨hself, -, -, hfree⟩ := barrier_verdict hnew (by decide) hreached (.refl s.lanes) honly
  obtain ⟨hverdict, horder⟩ := hfree hno
  have hfails := hverdict.2 ⟨hat, hdiv⟩
  refine ⟨s₀, s, hnew, hreached, by rwa [hself] at hfails, ?_⟩
  exact (horder s.lanes.reverse 1 .unbound (List.reverse_perm _) honly').1 hfails

/-- When the odd lane is about to return, the barrier finds the other lane alone if it comes second, and
    fails if it comes first. -/
theorem barrierOfEvenLanes_depends_on_order :
    ∃ s₀ s, Session.new (barrierOfEvenLanes []) {} {} [.numbered 1, .numbered 0] 0 {} = .ok s₀ ∧
      s₀.Reached s ∧ s.program.stage ≠ .pixel ∧ s.lanes.reverse.Perm s.lanes ∧
      s.OnlyBarriersFail .unbound ∧ (s.reorder s.lanes.reverse 1).OnlyBarriersFail .unbound ∧
      (∃ l ∈ s.lanes, ¬ l.isFinished ∧ l.AtBarrier s.program s.analyses) ∧ diverged s.lanes ∧
      (∃ states, (s.round .unbound).result = .ok states) ∧
      ((s.reorder s.lanes.reverse 1).round .unbound).result = .error (.diverged .barrier) := by
  have h : ∃ s₀, Session.new (barrierOfEvenLanes []) {} {} [.numbered 1, .numbered 0] 0 {} = .ok s₀ ∧
      ∃ states, s₀.start.result = .ok states ∧ ∃ s, s₀.start.session.advance .unbound 2 = .ok s ∧
        s.program.stage ≠ .pixel ∧ s.OnlyBarriersFail .unbound ∧
        (s.reorder s.lanes.reverse 1).OnlyBarriersFail .unbound ∧
        (∃ l ∈ s.lanes, ¬ l.isFinished ∧ l.AtBarrier s.program s.analyses) ∧ diverged s.lanes ∧
        (∃ states, (s.round .unbound).result = .ok states) ∧
        ((s.reorder s.lanes.reverse 1).round .unbound).result = .error (.diverged .barrier) := by
    decide +kernel
  obtain ⟨s₀, hnew, states, hstart, s, hs, hstage, honly, honly', hrest⟩ := h
  exact ⟨s₀, s, hnew, (Reached.started hstart).advance hs, hstage, List.reverse_perm _, honly, honly',
    hrest⟩

end Session

end Lockstep
