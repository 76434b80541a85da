import Lockstep.Host.Unbound
import Lockstep.Proofs.Exec.Derivative
import Lockstep.Proofs.Lane.Turn
import Lockstep.Proofs.Session.Mask
import Lockstep.Proofs.Session.Rounds

set_option autoImplicit false

/-! # Lanes of a quad come together

In a pixel session the lanes of a quad that has diverged wait for each other in uniform blocks. Any
two of them have the same uniform blocks ahead, unless one is caught where no exit can be reached, and
while the quad is diverged those that wait rest at the start of their block. This is the invariant
of the rounds (`Session.Aligned`), from which two lanes in uniform blocks are always at one place. -/

namespace Lockstep

/-! ## The invariant -/

/-- How the lanes of a quad stand to each other between two rounds. -/
structure Session.Aligned (f : Function) (a : FunctionAnalysis) (s : Session) : Prop where
  sound : ∀ l ∈ s.lanes, ¬ l.isFinished → l.place.Sound f a s.program.entry
  rest : ∀ l ∈ s.lanes, ¬ l.isFinished → l.AtRest f
  ahead : ∀ l ∈ s.lanes, ∀ l' ∈ s.lanes, ¬ l.isFinished → ¬ l'.isFinished →
    SameAhead f.Linked l.block l'.block
  start : diverged s.lanes → ∀ l ∈ s.lanes, ¬ l.isFinished → l.inUniformBlock s.analyses →
    l.AtStart f

/-- What a round makes of a lane that is still not finished. -/
inductive Session.Moved (s : Session) (f : Function) (l l' : Lane) : Prop
  /-- It waits where it is. -/
  | waits (hdiv : diverged s.lanes) (hu : l.inUniformBlock s.analyses) (hplace : l'.place = l.place)
  /-- It makes a turn, and comes to rest. -/
  | turns (hrun : ¬ (diverged s.lanes ∧ l.inUniformBlock s.analyses)) (hrest : l'.AtRest f)
      (hturn : Lane.Turn f l l')

theorem Session.Moved.turn {s : Session} {f : Function} {l l' : Lane} (h : s.Moved f l l')
    (hdiv : ¬ diverged s.lanes) : Lane.Turn f l l' := by
  cases h with
  | waits hdiv' _ _ => exact absurd hdiv' hdiv
  | turns _ _ hturn => exact hturn

namespace Session.Aligned

variable {s : Session} {f : Function} {a : FunctionAnalysis}

/-- Two lanes in uniform blocks are at one place. -/
theorem position_eq (he : s.program.Entry s.analyses f a) (h : s.Aligned f a) {l l' : Lane}
    (hl : l ∈ s.lanes) (hl' : l' ∈ s.lanes) (hfin : ¬ l.isFinished) (hfin' : ¬ l'.isFinished)
    (hu : l.inUniformBlock s.analyses) (hu' : l'.inUniformBlock s.analyses) :
    l.position = l'.position := by
  by_cases hdiv : diverged s.lanes
  -- both rest at the start of their blocks, and these are one block
  · have hs := h.sound l hl hfin
    have hs' := h.sound l' hl' hfin'
    have huni := ((Lane.inUniformBlock_iff he hs.function).1 hu).2
    have huni' := ((Lane.inUniformBlock_iff he hs'.function).1 hu').2
    have hblock := (h.ahead l hl l' hl' hfin hfin').eq_of_uniform huni huni'
    have hrest := h.rest l hl hfin
    have hrest' := h.rest l' hl' hfin'
    refine (Lane.position_eq_iff hs.numbered hs'.numbered hrest hrest').2 ?_
    exact Lane.instr_eq_of_atStart hs hs' hrest hrest' (h.start hdiv l hl hfin hu)
      (h.start hdiv l' hl' hfin' hu') hblock
  · exact position_eq_of_not_diverged hdiv hl hl' hfin hfin'

/-- A diverged quad has a lane that need not wait. -/
theorem held_any (he : s.program.Entry s.analyses f a) (h : s.Aligned f a)
    (hdiv : diverged s.lanes) : s.held.any id := by
  obtain ⟨l, hl, l', hl', hfin, hfin', hne⟩ := (diverged_iff s.lanes).1 hdiv
  by_contra hno
  -- otherwise the two lanes that are at different places are both in uniform blocks
  have huni : ∀ k ∈ s.lanes, ¬ k.isFinished → k.inUniformBlock s.analyses := by
    intro k hk hkfin
    by_contra hku
    refine hno (List.any_eq_true.2 ⟨true, List.mem_map.2 ⟨k, hk, ?_⟩, rfl⟩)
    simpa [hkfin] using hku
  exact hne (h.position_eq he hl hl' hfin hfin' (huni l hl hfin) (huni l' hl' hfin'))

/-- The mask lets a lane run that is not finished and need not wait. -/
theorem mask_eq (he : s.program.Entry s.analyses f a) (hstage : s.program.stage = .pixel)
    (h : s.Aligned f a) :
    s.mask = s.lanes.map fun l =>
      !l.isFinished && !(diverged s.lanes && l.inUniformBlock s.analyses) := by
  by_cases hdiv : diverged s.lanes
  · rw [mask_of_held hstage hdiv (h.held_any he hdiv), held]
    simp [hdiv]
  · rw [mask_of_not_diverged hdiv]
    simp [hdiv]

/-- What a round makes of the lanes that are still not finished: those that wait stay where they are,
    and the others make a turn. -/
theorem moved_of_round (he : s.program.Entry s.analyses f a) (hstage : s.program.stage = .pixel)
    (h : s.Aligned f a) {host : Host} {states : List StepState}
    (hok : (s.round host).result = .ok states) {l' : Lane} (hl' : l' ∈ (s.round host).session.lanes)
    (hfin' : ¬ l'.isFinished) : ∃ l ∈ s.lanes, ¬ l.isFinished ∧ s.Moved f l l' := by
  obtain ⟨j, hj⟩ := List.getElem?_of_mem hl'
  obtain ⟨l, hl, hround⟩ := (lanes_of_round hok).lane j l' hj
  have hmem : l ∈ s.lanes := List.mem_of_getElem? hl
  have hmask : s.mask[j]? =
      some (!l.isFinished && !(diverged s.lanes && l.inUniformBlock s.analyses)) := by
    rw [h.mask_eq he hstage, List.getElem?_map, hl]
    rfl
  rw [hmask] at hround
  by_cases hfin : l.isFinished
  · rw [if_neg (by simp [hfin])] at hround
    have hplace := Lane.place_of_frame hround.frame_eq
    rw [Lane.isFinished_of_place hplace] at hfin'
    exact absurd hfin hfin'
  · refine ⟨l, hmem, hfin, ?_⟩
    by_cases hwait : diverged s.lanes ∧ l.inUniformBlock s.analyses
    · rw [if_neg (by simp [hwait.1, hwait.2])] at hround
      exact .waits hwait.1 hwait.2 (Lane.place_of_frame hround.frame_eq)
    · rw [if_pos (by simpa [hfin, imp_iff_not_or] using hwait)] at hround
      obtain ⟨l₁, l₂, hstep, hrefresh, rfl⟩ := hround
      obtain ⟨hrest, hturn⟩ :=
        Lane.turn_of_stepping he (h.sound l hmem hfin) hfin hstep hrefresh hfin'
      exact .turns hwait hrest hturn

/-- The lanes of a quad that has not diverged are at one instruction of one block. -/
theorem place_eq (h : s.Aligned f a) (hdiv : ¬ diverged s.lanes) {l l' : Lane} (hl : l ∈ s.lanes)
    (hl' : l' ∈ s.lanes) (hfin : ¬ l.isFinished) (hfin' : ¬ l'.isFinished) :
    l.instr = l'.instr ∧ l.block = l'.block := by
  have hposition := position_eq_of_not_diverged hdiv hl hl' hfin hfin'
  refine ⟨?_, congrArg Prod.fst hposition⟩
  exact (Lane.position_eq_iff (h.sound l hl hfin).numbered (h.sound l' hl' hfin').numbered
    (h.rest l hl hfin) (h.rest l' hl' hfin')).1 hposition

/-- In a diverged quad a round moves a lane along a link only out of a block that is not uniform. -/
theorem link_of_moved (he : s.program.Entry s.analyses f a) (h : s.Aligned f a)
    (hdiv : diverged s.lanes) {l l' : Lane} (hl : l ∈ s.lanes) (hfin : ¬ l.isFinished)
    (hmoved : s.Moved f l l') :
    l'.block = l.block ∨ (f.Linked l.block l'.block ∧ ¬ Uniform f.Linked l.block) := by
  cases hmoved with
  | waits _ _ hplace => exact .inl (congrArg Place.block hplace)
  | turns hrun _ hturn =>
      cases hturn with
      | within _ _ _ hblock _ => exact .inl hblock
      | jump _ _ _ hlink _ =>
          refine .inr ⟨hlink, Lane.not_uniform_of_link he (h.sound l hl hfin).function ?_ hlink⟩
          exact fun hu => hrun ⟨hdiv, hu⟩

/-- Two lanes of a quad that has not diverged stay together within a block, or both leave it. -/
theorem together_of_moved (h : s.Aligned f a) (hdiv : ¬ diverged s.lanes) {l l' m m' : Lane}
    (hl : l ∈ s.lanes) (hm : m ∈ s.lanes) (hfin : ¬ l.isFinished) (hmfin : ¬ m.isFinished)
    (hmoved : s.Moved f l l') (hmmoved : s.Moved f m m') :
    (l'.block = l.block ∧ m'.block = l.block ∧ l'.instr = m'.instr) ∨
      ((f.Linked l.block l'.block ∧ l'.AtStart f) ∧ (f.Linked l.block m'.block ∧ m'.AtStart f)) := by
  obtain ⟨hinstr, hblock⟩ := h.place_eq hdiv hl hm hfin hmfin
  exact (hmoved.turn hdiv).together (hmmoved.turn hdiv) hinstr hblock

/-- After a round any two lanes have the same uniform blocks ahead, unless one has none. -/
theorem ahead_of_moved (he : s.program.Entry s.analyses f a) (h : s.Aligned f a) {l l' m m' : Lane}
    (hl : l ∈ s.lanes) (hm : m ∈ s.lanes) (hfin : ¬ l.isFinished) (hmfin : ¬ m.isFinished)
    (hmoved : s.Moved f l l') (hmmoved : s.Moved f m m') : SameAhead f.Linked l'.block m'.block := by
  have hs := h.sound l hl hfin
  have hms := h.sound m hm hmfin
  by_cases hdiv : diverged s.lanes
  -- a diverged quad passes no uniform block; one that is together goes on along links of one block
  · have hlink := h.link_of_moved he hdiv hl hfin hmoved
    have hmlink := h.link_of_moved he hdiv hm hmfin hmmoved
    exact (((h.ahead l hl m hm hfin hmfin).move hs.reached hlink).symm.move hms.reached hmlink).symm
  · rcases h.together_of_moved hdiv hl hm hfin hmfin hmoved hmmoved with
      ⟨hl', hm', -⟩ | ⟨⟨hl', -⟩, hm', -⟩
    · rw [hl', hm']
      exact .refl _
    · exact .of_links hs.reached hl' hm'

/-- A lane that waits in a diverged quad is still at the start of its block, and one that comes to
    wait has jumped there. -/
theorem atStart_of_diverged (h : s.Aligned f a) (hdiv : diverged s.lanes) {l l' : Lane}
    (hl : l ∈ s.lanes) (hfin : ¬ l.isFinished) (hmoved : s.Moved f l l')
    (hfunction : l'.function = l.function) (hu' : l'.inUniformBlock s.analyses) : l'.AtStart f := by
  cases hmoved with
  | waits _ hu hplace => exact (h.start hdiv l hl hfin hu).of_place hplace
  | turns hrun _ hturn =>
      cases hturn with
      | within _ _ _ hblock _ =>
          rw [Lane.inUniformBlock_congr hfunction hblock] at hu'
          exact absurd ⟨hdiv, hu'⟩ hrun
      | jump _ _ _ _ hstart => exact hstart

/-- When two lanes of a quad part, every lane of the quad has jumped. -/
theorem atStart_of_parted (h : s.Aligned f a) (hdiv : ¬ diverged s.lanes) {l l' m m' n n' : Lane}
    (hl : l ∈ s.lanes) (hm : m ∈ s.lanes) (hn : n ∈ s.lanes) (hfin : ¬ l.isFinished)
    (hmfin : ¬ m.isFinished) (hnfin : ¬ n.isFinished) (hmoved : s.Moved f l l')
    (hmmoved : s.Moved f m m') (hnmoved : s.Moved f n n') (hne : m'.instr ≠ n'.instr) :
    l'.AtStart f := by
  rcases h.together_of_moved hdiv hl hm hfin hmfin hmoved hmmoved with
    ⟨-, -, hlm⟩ | ⟨⟨-, hstart⟩, -⟩
  · rcases h.together_of_moved hdiv hl hn hfin hnfin hmoved hnmoved with
      ⟨-, -, hln⟩ | ⟨⟨-, hstart⟩, -⟩
    · exact absurd (hlm.symm.trans hln) hne
    · exact hstart
  · exact hstart

/-- A round keeps the lanes of a quad aligned. -/
theorem round (he : s.program.Entry s.analyses f a) (hstage : s.program.stage = .pixel)
    (h : s.Aligned f a) {host : Host} {states : List StepState}
    (hok : (s.round host).result = .ok states)
    (hsound : ∀ l ∈ (s.round host).session.lanes, ¬ l.isFinished →
      l.place.Sound f a (s.round host).session.program.entry) :
    (s.round host).session.Aligned f a := by
  have hlanes := lanes_of_round hok
  have hrest : ∀ l ∈ (s.round host).session.lanes, ¬ l.isFinished → l.AtRest f := by
    intro l' hl' hfin'
    obtain ⟨l, hl, hfin, hmoved⟩ := h.moved_of_round he hstage hok hl' hfin'
    cases hmoved with
    | waits _ _ hplace => exact (h.rest l hl hfin).of_place hplace
    | turns _ hrest _ => exact hrest
  refine ⟨hsound, hrest, ?_, ?_⟩
  · intro l' hl' m' hm' hfin' hmfin'
    obtain ⟨l, hl, hfin, hmoved⟩ := h.moved_of_round he hstage hok hl' hfin'
    obtain ⟨m, hm, hmfin, hmmoved⟩ := h.moved_of_round he hstage hok hm' hmfin'
    exact h.ahead_of_moved he hl hm hfin hmfin hmoved hmmoved
  · intro hdiv' l' hl' hfin' hu'
    obtain ⟨l, hl, hfin, hmoved⟩ := h.moved_of_round he hstage hok hl' hfin'
    rw [hlanes.analyses] at hu'
    -- a quad that was diverged has waited for this, and one that was not has just parted
    by_cases hdiv : diverged s.lanes
    · refine h.atStart_of_diverged hdiv hl hfin hmoved ?_ hu'
      rw [show l.function = _ from (h.sound l hl hfin).function, ← hlanes.program]
      exact (hsound l' hl' hfin').function
    · obtain ⟨m', hm', n', hn', hmfin', hnfin', hne⟩ := (diverged_iff _).1 hdiv'
      obtain ⟨m, hm, hmfin, hmmoved⟩ := h.moved_of_round he hstage hok hm' hmfin'
      obtain ⟨n, hn, hnfin, hnmoved⟩ := h.moved_of_round he hstage hok hn' hnfin'
      refine h.atStart_of_parted hdiv hl hm hn hfin hmfin hnfin hmoved hmmoved hnmoved fun heq => ?_
      exact hne ((Lane.position_eq_iff (hsound m' hm' hmfin').numbered (hsound n' hn' hnfin').numbered
        (hrest m' hm' hmfin') (hrest n' hn' hnfin')).2 heq)

/-- The lanes of a quad are aligned when they have entered the program: they are at one place. -/
theorem of_start {p : Program} {s₀ : Session} (hfresh : Fresh p s₀) (he : p.Entry s₀.analyses f a)
    {states : List StepState} (hok : s₀.start.result = .ok states) : s₀.start.session.Aligned f a := by
  have hlanes := lanesBy_start hok
  -- every lane moves past the same markers from the first instruction on
  have hprogram : s₀.start.session.program = p := hlanes.program.trans hfresh.program
  have hstart : ∀ l ∈ s₀.start.session.lanes, l.place.Sound f a p.entry ∧ l.AtRest f ∧
      l.block = 0 ∧ l.instr = Lane.nopsFrom f 0 f.instrs.size := by
    intro l hl
    obtain ⟨index, init, henter⟩ := hfresh.enter_of_start hok hl
    obtain ⟨a', l₁, ha', rfl, hplace⟩ := Lane.place_of_enter henter
    obtain rfl : a = a' := Option.some.inj (he.analysis.symm.trans ha')
    have hsound : l₁.place.Sound f a p.entry := by
      rw [hplace]
      exact ⟨rfl, rfl, rfl, .refl⟩
    have hfin : ¬ l₁.isFinished := by
      show ¬ (l₁.place.isKilled || l₁.place.isEnded || !l₁.place.isEntered) = true
      rw [hplace]
      exact Bool.false_ne_true
    obtain ⟨hblock, hinstr, hrest⟩ := Lane.skipNops_spec he.enters hsound.function hfin
    have hblock₁ : l₁.block = 0 := congrArg Place.block hplace
    have hinstr₁ : l₁.instr = 0 := congrArg Place.instr hplace
    rw [hinstr₁, Nat.zero_add] at hinstr
    exact ⟨Lane.sound_skipNops he hsound, hrest, hblock.trans hblock₁, hinstr⟩
  refine ⟨fun l hl _ => hprogram ▸ (hstart l hl).1, fun l hl _ => (hstart l hl).2.1,
    fun l hl l' hl' _ _ => ?_, fun hdiv => ?_⟩
  · rw [(hstart l hl).2.2.1, (hstart l' hl').2.2.1]
    exact .refl 0
  · obtain ⟨l, hl, l', hl', -, -, hne⟩ := (diverged_iff _).1 hdiv
    obtain ⟨hs, hrest, -, hinstr⟩ := hstart l hl
    obtain ⟨hs', hrest', -, hinstr'⟩ := hstart l' hl'
    exact absurd ((Lane.position_eq_iff hs.numbered hs'.numbered hrest hrest').2 (hinstr.trans hinstr'.symm)) hne

/-- The lanes of a pixel quad are aligned in every reached state. -/
theorem of_reached {p : Program} {s₀ : Session} (hfresh : Fresh p s₀) (hstage : p.stage = .pixel)
    (he : p.Entry s₀.analyses f a) (h : Reached s₀ s) : s.Aligned f a := by
  induction h with
  | started h => exact of_start hfresh he h
  | @round s host states hs h ih =>
      have hprogram : s.program = p := hs.program_eq.trans hfresh.program
      have hnext : Reached s₀ (s.round host).session := hs.round h
      refine ih.round (by rwa [hprogram, hs.analyses_eq]) (by rwa [hprogram]) h fun l hl hfin => ?_
      rw [hnext.program_eq, hfresh.program]
      exact (hnext.run hfresh hl).sound he hfin

/-! ## Turns within a round -/

/-- When a lane in a uniform block has its turn, and its instruction does not end the block, every lane
    that is not finished is at its place, those that have had their turn before it included. -/
theorem position_eq_at_turn (he : s.program.Entry s.analyses f a)
    (hstage : s.program.stage = .pixel) (h : s.Aligned f a) {host : Host} {k : Nat}
    {states : List StepState} (hk : s.mask[k]? = some true)
    (hok : (s.stepLanes host 0 (s.mask.take k)).result = .ok states) {l : Lane}
    (hl : (s.stepLanes host 0 (s.mask.take k)).session.lanes[k]? = some l)
    (hu : l.inUniformBlock s.analyses) {i : Instr} (hi : f.instrs[l.instr]? = some i)
    (ht : ¬ i.isTerminator) {m : Lane}
    (hm : m ∈ (s.stepLanes host 0 (s.mask.take k)).session.lanes) (hfin : ¬ m.isFinished) :
    m.position = l.position := by
  have hlanes := lanesBy_stepLanes hok
  have hl₀ : s.lanes[k]? = some l := (getElem?_stepLanes_take hok).symm.trans hl
  have hmem : l ∈ s.lanes := List.mem_of_getElem? hl₀
  rw [h.mask_eq he hstage, List.getElem?_map, hl₀] at hk
  have hrun : ¬ l.isFinished ∧ ¬ diverged s.lanes := by
    simpa [hu] using hk
  obtain ⟨j, hj⟩ := List.getElem?_of_mem hm
  obtain ⟨m₀, hm₀, hturn⟩ := hlanes.lane j m hj
  have hmmem : m₀ ∈ s.lanes := List.mem_of_getElem? hm₀
  have hposition : ∀ n ∈ s.lanes, ¬ n.isFinished → n.position = l.position :=
    fun n hn hnfin => position_eq_of_not_diverged hrun.2 hn hmem hnfin hrun.1
  split at hturn
  -- a lane that has had its turn is past the same instruction, and has not come to rest yet
  · next hj =>
      obtain ⟨setting, w, state, hp, has, hstep, rfl⟩ := hturn
      by_cases hfin₀ : m₀.isFinished
      · rw [Lane.step_of_isFinished hfin₀] at hfin
        exact absurd hfin₀ hfin
      · obtain ⟨i', -, hi', hnext⟩ :=
          Lane.next_of_step he.enters (h.sound m₀ hmmem hfin₀).function hfin₀ hp has hstep
        rw [(h.place_eq hrun.2 hmmem hmem hfin₀ hrun.1).1, hi] at hi'
        cases hi'
        rw [← hposition m₀ hmmem hfin₀]
        generalize hq : (m₀.step setting w).lane.place = q at hnext
        cases hnext with
        | within =>
            exact Prod.ext (congrArg Place.block hq) (congrArg Place.activeInstr hq)
        | jump _ _ ht' _ _ => exact absurd ht' ht
        | stop _ hstop => exact absurd (Lane.isFinished_of_stop (hq ▸ hstop)) hfin
  · subst hturn
    exact hposition m hmmem hfin

/-- An instruction of a uniform block that does not end the block never finds lanes at different
    places. -/
theorem not_diverged_at_turn (he : s.program.Entry s.analyses f a)
    (hstage : s.program.stage = .pixel) (h : s.Aligned f a) {host : Host} {k : Nat}
    {states : List StepState} (hk : s.mask[k]? = some true)
    (hok : (s.stepLanes host 0 (s.mask.take k)).result = .ok states) {l : Lane}
    (hl : (s.stepLanes host 0 (s.mask.take k)).session.lanes[k]? = some l)
    (hu : l.inUniformBlock s.analyses) {i : Instr} (hi : f.instrs[l.instr]? = some i)
    (ht : ¬ i.isTerminator) :
    ¬ diverged (((s.stepLanes host 0 (s.mask.take k)).session.setting host k).groupWith l.advanced) := by
  have hposition : ∀ m ∈ (s.stepLanes host 0 (s.mask.take k)).session.lanes, ¬ m.isFinished →
      m.position = l.position :=
    fun m hm hfin => h.position_eq_at_turn he hstage hk hok hl hu hi ht hm hfin
  -- the lane that has its turn is past its instruction, but still says that it is there
  have hgroup : ∀ m ∈ ((s.stepLanes host 0 (s.mask.take k)).session.setting host k).groupWith
      l.advanced, ¬ m.isFinished → m.position = l.position := by
    intro m hm hfin
    rcases List.mem_or_eq_of_mem_set hm with hm | rfl
    · exact hposition m hm hfin
    · rfl
  intro hdiv
  obtain ⟨m, hm, n, hn, hmfin, hnfin, hne⟩ := (diverged_iff _).1 hdiv
  exact hne ((hgroup m hm hmfin).trans (hgroup n hn hnfin).symm)

/-- The instruction that a lane has its turn at is that of its place in the entry function. -/
theorem instr_at_turn (he : s.program.Entry s.analyses f a) (hstage : s.program.stage = .pixel)
    (h : s.Aligned f a) {host : Host} {k : Nat} {states : List StepState}
    (hk : s.mask[k]? = some true) (hok : (s.stepLanes host 0 (s.mask.take k)).result = .ok states)
    {l : Lane} (hl : (s.stepLanes host 0 (s.mask.take k)).session.lanes[k]? = some l)
    {a' : FunctionAnalysis} {i : Instr} (hi : l.nextInstr s.program s.analyses = .ok (a', i)) :
    f.instrs[l.instr]? = some i := by
  have hl₀ : s.lanes[k]? = some l := (getElem?_stepLanes_take hok).symm.trans hl
  have hfin : ¬ l.isFinished := by
    intro hfin
    rw [h.mask_eq he hstage, List.getElem?_map, hl₀] at hk
    simp [hfin] at hk
  exact (Lane.instr_of_nextInstr he.enters
    (h.sound l (List.mem_of_getElem? hl₀) hfin).function hi).2

/-- So a derivative in a uniform block does not fail because of that. -/
theorem noDivergence_stepLane (he : s.program.Entry s.analyses f a)
    (hstage : s.program.stage = .pixel) (h : s.Aligned f a) {host : Host} {k : Nat}
    {states : List StepState} (hk : s.mask[k]? = some true)
    (hok : (s.stepLanes host 0 (s.mask.take k)).result = .ok states) {l : Lane}
    (hl : (s.stepLanes host 0 (s.mask.take k)).session.lanes[k]? = some l)
    (hu : l.inUniformBlock s.analyses) {a' : FunctionAnalysis} {i : Instr}
    (hi : l.nextInstr s.program s.analyses = .ok (a', i)) (hd : i.isDerivative) :
    NoDivergence ((s.stepLanes host 0 (s.mask.take k)).session.stepLane host k).result := by
  have hdiv := h.not_diverged_at_turn he hstage hk hok hl hu (h.instr_at_turn he hstage hk hok hl hi)
    (i.not_isTerminator_of_isDerivative hd)
  have hlanes := lanesBy_stepLanes hok
  generalize (s.stepLanes host 0 (s.mask.take k)).session = t at hl hlanes hdiv
  have hstep : NoDivergence (l.step (t.setting host k) t.world).result := by
    refine Lane.noDivergence_step (a := a') (i := i) ?_ hd hdiv
    show l.nextInstr t.program t.analyses = _
    rw [hlanes.program, hlanes.analyses]
    exact hi
  unfold stepLane
  rw [hl]
  dsimp only
  split
  · next fault hfault => exact .error (hstep fault hfault)
  · split <;> exact .ok _

end Session.Aligned

namespace Session

/-- A session that has been started has a function that it enters, and the analysis of it. -/
theorem entry_of_reached {p : Program} {s₀ s : Session} (hfresh : Fresh p s₀)
    (htargets : ∀ f, p.entryFunction? = some f → f.TargetsAgree) (h : s₀.Reached s) :
    ∃ f a, p.Entry s₀.analyses f a := by
  obtain ⟨f, a, he⟩ := h.enters hfresh
  exact ⟨f, a, he.function, he.analysis, he.describes, htargets f he.function⟩

/-- The lanes of a pixel quad come together again. In every state between two rounds, lanes in uniform
    blocks are at one place; so in a quad that has diverged there is always a lane outside of uniform
    blocks, and those are the lanes that run. When a lane in a uniform block has its turn in a round,
    an instruction that does not end the block does not find lanes at different places, and a
    derivative does not fail because of that. -/
theorem quad_reconverges {p : Program} {b : Bindings} {w : World} {inits : List LaneInit}
    {active : Nat} {config : Config} {s₀ s : Session}
    (hnew : Session.new p b w inits active config = .ok s₀) (hstage : p.stage = .pixel)
    (htargets : ∀ f, p.entryFunction? = some f → f.TargetsAgree) (hs : s₀.Reached s) :
    (∀ l ∈ s.lanes, ∀ l' ∈ s.lanes, ¬ l.isFinished → ¬ l'.isFinished →
        l.inUniformBlock s.analyses → l'.inUniformBlock s.analyses → l.position = l'.position) ∧
      (diverged s.lanes → s.held.any id ∧ s.mask = s.held) ∧
      ∀ (host : Host) (k : Nat) (states : List StepState) (l : Lane) (a : FunctionAnalysis)
        (i : Instr),
        s.mask[k]? = some true → (s.stepLanes host 0 (s.mask.take k)).result = .ok states →
        (s.stepLanes host 0 (s.mask.take k)).session.lanes[k]? = some l →
        l.inUniformBlock s.analyses → l.nextInstr s.program s.analyses = .ok (a, i) →
        (¬ i.isTerminator →
          ¬ diverged (((s.stepLanes host 0 (s.mask.take k)).session.setting host k).groupWith
            l.advanced)) ∧
        (i.isDerivative → ∀ at_,
          ((s.stepLanes host 0 (s.mask.take k)).session.stepLane host k).result ≠
            .error (.diverged at_)) := by
  have hfresh := fresh_of_new hnew
  obtain ⟨f, a, he⟩ := entry_of_reached hfresh htargets hs
  have haligned := Aligned.of_reached hfresh hstage he hs
  rw [← hs.analyses_eq, ← hfresh.program, ← hs.program_eq] at he
  rw [← hfresh.program, ← hs.program_eq] at hstage
  refine ⟨?_, ?_, ?_⟩
  · intro l hl l' hl' hfin hfin' hu hu'
    exact haligned.position_eq he hl hl' hfin hfin' hu hu'
  · intro hdiv
    have hany := haligned.held_any he hdiv
    exact ⟨hany, mask_of_held hstage hdiv hany⟩
  · intro host k states l a' i hk hok hl hu hi
    constructor
    · intro ht
      have hinstr := haligned.instr_at_turn he hstage hk hok hl hi
      exact haligned.not_diverged_at_turn he hstage hk hok hl hu hinstr ht
    · intro hd at_ hfault
      exact haligned.noDivergence_stepLane he hstage hk hok hl hu hi hd _ hfault rfl

/-- A pixel program in which the lanes with an odd number go through block 1, and all take a derivative
    in block 2. -/
def oddLanesBranch : Program :=
  { stage := .pixel
    functions := #[{
      name := "oddLanesBranch"
      blocks := #[{}, { preds := [0] }, { preds := [0, 1] }]
      instrs := #[
        { op := .call, ty := .int 32, result := some ⟨0⟩,
          callee := some (.intrinsic .flattenedThreadIdInGroup) },
        { op := .br, args := [.block 1, .block 2, .ref ⟨0⟩] },
        { op := .br, args := [.block 2] },
        { op := .call, ty := .float 32, result := some ⟨1⟩, args := [.const (.float 32 0)],
          callee := some (.intrinsic .derivCoarseX) },
        { op := .ret }] }]
    idCount := 2 }

/-- After two rounds a quad is diverged, and the lanes with an even number are held back; after the
    third the quad is together. -/
theorem oddLanesBranch_reconverges :
    ∃ s₀ s t, Session.new oddLanesBranch {} {} [.numbered 0, .numbered 1, .numbered 2, .numbered 3] 0 {} =
        .ok s₀ ∧ s₀.Reached s ∧ s.advance .unbound 1 = .ok t ∧ diverged s.lanes ∧
      s.mask = [false, true, false, true] ∧ s.held = s.mask ∧
      ∀ l ∈ t.lanes, ∀ l' ∈ t.lanes, l.position = l'.position := by
  have h : ∃ s₀, Session.new oddLanesBranch {} {} [.numbered 0, .numbered 1, .numbered 2, .numbered 3] 0 {} =
        .ok s₀ ∧ ∃ states, s₀.start.result = .ok states ∧
      ∃ s, s₀.start.session.advance .unbound 2 = .ok s ∧ diverged s.lanes ∧
        s.mask = [false, true, false, true] ∧
      ∃ t, s.advance .unbound 1 = .ok t ∧
        ∀ l ∈ t.lanes, ¬ l.isFinished ∧ l.inUniformBlock t.analyses := by
    decide +kernel
  obtain ⟨s₀, hnew, states, hstart, s, hs, hdiv, hmask, t, ht, huniform⟩ := h
  have hreached : s₀.Reached s := (Reached.started hstart).advance hs
  have htargets : ∀ f, oddLanesBranch.entryFunction? = some f → f.TargetsAgree := by
    intro f hf
    cases hf
    decide
  obtain ⟨-, hheld, -⟩ := quad_reconverges hnew rfl htargets hreached
  obtain ⟨htogether, -, -⟩ := quad_reconverges hnew rfl htargets (hreached.advance ht)
  refine ⟨s₀, s, t, hnew, hreached, ht, hdiv, hmask, (hheld hdiv).2.symm, ?_⟩
  intro l hl l' hl'
  exact htogether l hl l' hl' (huniform l hl).1 (huniform l' hl').1 (huniform l hl).2
    (huniform l' hl').2

end Session

end Lockstep
