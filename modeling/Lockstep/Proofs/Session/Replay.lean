import Lockstep.Proofs.Lane.Replay
import Lockstep.Proofs.Session.Globals
import Lockstep.Proofs.Session.Mask
import Lockstep.Proofs.Session.Rounds

set_option autoImplicit false

/-! # Replaying the changes of a session

A watch window that follows what a session of one lane reports shows the lane: its input and the
identifiers that are in scope, with their values (`Session.changes_replay`). Left aside are the output,
the marks for the use of a resource, and names that a step leaves aside (`Turn.LeavesAside`). -/

namespace Lockstep

namespace Lane

/-- A watch window shows a lane: the input, and what is in scope, with the latest values. Each variable
    is shown under its name, and there is nothing else. -/
structure ShownIn (l : Lane) (p : Program) (aside : String → Prop) (watch : Watch) : Prop where
  input : ¬ aside l.input.name → watch l.input.name = some l.input
  live : ∀ {id n}, p.Names id n → ¬ aside n → id ∈ l.liveIds →
    ∃ v, l.value? id = some v ∧ v.name = n ∧ watch n = some v
  only : ∀ {n v}, ¬ aside n → watch n = some v →
    v.name = n ∧ (v = l.input ∨ ∃ id ∈ l.liveIds, p.Names id n ∧ l.value? id = some v)

/-! ## Entering -/

variable {names : Id → String → Prop} {aside : String → Prop} {l l' : Lane} {gs : List GlobalVar}

theorem scene_skipNops (l : Lane) (p : Program) : (l.skipNops p).scene = l.scene := by
  obtain ⟨_, _, _, h⟩ := skipNops_eq l p
  rw [h]
  rfl

theorem output_skipNops (l : Lane) (p : Program) : (l.skipNops p).output = l.output := by
  obtain ⟨_, _, _, h⟩ := skipNops_eq l p
  rw [h]

theorem Kept.skipNops {p : Program} {o : Outcome} {shared : Memory} (h : l.Kept p aside o shared) :
    (l.skipNops p).Kept p aside o shared := by
  refine ⟨(cells_skipNops l p).symm ▸ h.size, (memory_skipNops l p).symm ▸ h.places,
    (output_skipNops l p).symm ▸ h.output, ?_⟩
  rw [scene_skipNops]
  exact h.shows

/-- To read global variables again whose values show what memory holds changes nothing. -/
theorem refreshGlobals_of_shows {memory : Memory}
    (h : ∀ g ∈ gs, ∀ {v a}, l.value? g.id = some v → memory.allocation? g.id = some a → v.Shows a.bytes)
    (hok : (l.refreshGlobals memory gs).1 = .ok ()) : l.refreshGlobals memory gs = (.ok (), l) := by
  induction gs with
  | nil => rfl
  | cons g gs ih =>
      replace ih := ih fun g hg => h g (List.mem_cons_of_mem _ hg)
      rw [refreshGlobals] at hok ⊢
      split
      · next hnone =>
          rw [hnone] at hok
          exact ih hok
      · next v hv =>
          rw [hv] at hok
          dsimp only at hok
          split
          · next fault hreload =>
              rw [hreload] at hok
              cases hok
          · next v' hreload =>
              rw [hreload] at hok
              obtain ⟨a, ha, rfl⟩ := Memory.reload_ok hreload
              have hshows : v.ofBytes a.bytes = v := h g List.mem_cons_self hv ha
              dsimp only at hok ⊢
              rw [hshows, assign_eq_self hv] at hok ⊢
              exact ih hok

/-- Assigning global variables is reported as their creation. -/
theorem shown_of_bindGlobals (hd : Distinct names) {live : Id → Prop} {w : Watch}
    (hshown : (l.scene.within live).Shown names aside w)
    (hgs : ∀ g ∈ gs, g.id.index < l.cells.size ∧ names g.id g.value.name ∧ l.scene.value g.id = none)
    (hids : (gs.map (·.id)).Nodup) (hok : l.bindGlobals gs = (l', none)) :
    ∃ w', w.Follows aside (gs.map fun g => .created g.value) w' ∧
      (l'.scene.within fun x => live x ∨ x ∈ gs.map (·.id)).Shown names aside w' := by
  induction gs generalizing l live w with
  | nil =>
      cases hok
      exact ⟨w, .nil, by simpa using hshown⟩
  | cons g gs ih =>
      obtain ⟨hlt, hname, hnone⟩ := hgs g List.mem_cons_self
      rw [List.map_cons, List.nodup_cons] at hids
      have hscene := scene_assign hlt g.value
      have hrest : ∀ g' ∈ gs, g'.id.index < (l.assign g.id g.value).cells.size ∧
          names g'.id g'.value.name ∧ (l.assign g.id g.value).scene.value g'.id = none := by
        intro g' hg'
        obtain ⟨hlt', hname', hnone'⟩ := hgs g' (List.mem_cons_of_mem _ hg')
        have hne : g'.id ≠ g.id := fun heq => hids.1 (heq ▸ List.mem_map_of_mem hg')
        rw [size_assign, hscene]
        exact ⟨hlt', hname', (if_neg hne).trans hnone'⟩
      obtain ⟨w₁, hw₁, hshown₁⟩ := hshown.assign hd (v := g.value) (.inl hname) fun h => by
        rw [show (l.scene.within live).value g.id = none from hnone] at h
        cases h
      rw [Scene.assignment, show (l.scene.within live).value g.id = none from hnone] at hw₁
      rw [bindGlobals] at hok
      split at hok
      · have hshown₁ : ((l.assign g.id g.value).scene.within fun x => live x ∨ x = g.id).Shown names
            aside w₁ := hscene ▸ hshown₁
        obtain ⟨w', hw', hshown'⟩ := ih hshown₁ hrest hids.2 hok
        refine ⟨w', hw₁.append hw', ?_⟩
        simpa [or_assoc] using hshown'
      · cases hok

/-- What assigning global variables leaves of a lane. -/
theorem bindGlobals_ok (hgs : ∀ g ∈ gs, g.id.index < l.cells.size) (hok : l.bindGlobals gs = (l', none)) :
    l' = { l with cells := l'.cells } ∧ l'.cells.size = l.cells.size ∧
      ∀ {id v}, l'.scene.value id = some v → l.scene.value id = some v ∨ ∃ g ∈ gs, g.id = id ∧ g.value = v := by
  induction gs generalizing l with
  | nil =>
      cases hok
      exact ⟨rfl, rfl, .inl⟩
  | cons g gs ih =>
      have hlt := hgs g List.mem_cons_self
      rw [bindGlobals] at hok
      split at hok
      · obtain ⟨hl', hsize, hvalue⟩ := ih (fun g' hg' => by
          rw [size_assign]
          exact hgs g' (List.mem_cons_of_mem _ hg')) hok
        refine ⟨?_, hsize.trans (size_assign ..), fun {id v} hv => ?_⟩
        · rw [assign, if_pos hlt] at hl'
          exact hl'
        · rcases hvalue hv with hv | ⟨g', hg', heq⟩
          · rw [scene_assign hlt] at hv
            simp only [Scene.set] at hv
            split at hv
            · next hid =>
                cases hv
                exact .inr ⟨g, List.mem_cons_self, hid.symm, rfl⟩
            · exact .inl hv
          · exact .inr ⟨g', List.mem_cons_of_mem _ hg', heq⟩
      · cases hok

theorem scene_scopeGlobals {live : Array Bool} (hsize : live.size = l.cells.size) :
    (l.scopeGlobals live).scene = l.scene.within fun x => live[x.index]? = some true := by
  refine Scene.ext rfl (funext fun x => ?_) (funext fun x => propext ?_)
  · simp only [scene, Scene.within, scopeGlobals, Array.getElem?_mapIdx]
    cases l.cells[x.index]? with
    | none => rfl
    | some c => cases live[x.index]? <;> rfl
  · simp only [scene, Scene.within, scopeGlobals, Array.getElem?_mapIdx]
    by_cases hlt : x.index < l.cells.size
    · rw [Array.getElem?_eq_getElem hlt, Array.getElem?_eq_getElem (hsize ▸ hlt)]
      simp
    · rw [Array.getElem?_eq_none (Nat.le_of_not_lt hlt),
        Array.getElem?_eq_none (hsize ▸ Nat.le_of_not_lt hlt)]
      simp

theorem scene_new (index : Nat) (p : Program) (init : LaneInit) (id : Id) :
    (Lane.new index p init).scene.value id = none := by
  simp only [scene, Lane.new, Array.getElem?_replicate]
  split
  · rfl
  · rfl

/-- A lane that has entered the program shows its input and the global variables. -/
theorem shown_of_enter {p : Program} {b : Bindings} {as : Analyses} {live : Array Bool} {w : World}
    {index : Nat} {init : LaneInit} (hp : p.WellNamed)
    (hinput : ∀ id, ¬ p.Names id (Lane.new index p init).input.name)
    (hglobals : Session.Allocated p.globals b live w) (hlive : live.size = p.idCount)
    (henter : (Lane.new index p init).enter p b as live = (.ok (), l)) :
    (∃ watch, Watch.blank.Follows aside (l.initialState b).changes watch ∧
      l.scene.Shown p.Names aside watch) ∧
    l.output = (Lane.new index p init).output ∧
    ∀ {id v}, l.scene.value id = some v → ∃ g ∈ b.globals, g.id = id ∧ g.value = v := by
  obtain ⟨a, l₁, -, hbind, hl⟩ := eq_of_enter henter
  have hmoved : ∃ l₂ : Lane, l = (l₂.scopeGlobals live).skipNops p ∧ l₂.scene = l₁.scene ∧
      l₂.cells.size = l₁.cells.size ∧ l₂.output = l₁.output := ⟨_, hl, rfl, rfl, rfl⟩
  obtain ⟨l₂, rfl, hscene₂, hsize₂, houtput₂⟩ := hmoved
  have hsize : (Lane.new index p init).cells.size = p.idCount := Array.size_replicate
  have hgs : ∀ g ∈ b.globals, g.id.index < (Lane.new index p init).cells.size ∧
      p.Names g.id g.value.name ∧ (Lane.new index p init).scene.value g.id = none := by
    intro g hg
    obtain ⟨d, hd, hid, hname⟩ := hglobals.name g hg
    have hnames : p.Names g.id g.value.name := hid ▸ hname ▸ .global hd
    exact ⟨hsize ▸ hp.index_lt hnames, hnames, scene_new ..⟩
  obtain ⟨hl₁, hsize₁, hvalue⟩ := bindGlobals_ok (fun g hg => (hgs g hg).1) hbind
  have hscene : ((l₂.scopeGlobals live).skipNops p).scene =
      l₁.scene.within fun x => False ∨ x ∈ b.globals.map (·.id) := by
    rw [scene_skipNops, scene_scopeGlobals (by rw [hsize₂, hsize₁, hsize, hlive]), hscene₂]
    refine Scene.ext rfl rfl (funext fun x => propext ?_)
    show live[x.index]? = some true ↔ False ∨ x ∈ b.globals.map (·.id)
    rw [hglobals.live, hglobals.ids, List.mem_map, false_or]
  have hinput₁ : l₁.input = (Lane.new index p init).input := (congrArg Lane.input hl₁ :)
  have houtput₁ : l₁.output = (Lane.new index p init).output := (congrArg Lane.output hl₁ :)
  refine ⟨?_, ?_, fun hv => ?_⟩
  · -- first the input comes into being, then one global variable after the other
    obtain ⟨w₀, hw₀, hshown₀⟩ := @Scene.Shown.of_input p.Names aside
      ((Lane.new index p init).scene.within fun _ => False) hinput (fun _ => scene_new ..) fun _ h => h
    obtain ⟨w₁, hw₁, hshown₁⟩ := shown_of_bindGlobals hp.distinct hshown₀ hgs
      (hglobals.ids ▸ hp.globals) hbind
    refine ⟨w₁, ?_, hscene ▸ hshown₁⟩
    have hchanges := hw₀.append hw₁
    have hstate : ((l₂.scopeGlobals live).skipNops p).input = (Lane.new index p init).input :=
      (congrArg Scene.input hscene :).trans hinput₁
    rw [initialState, hstate]
    exact hchanges
  · rw [output_skipNops]
    exact houtput₂.trans houtput₁
  · rw [hscene] at hv
    refine (hvalue hv).resolve_left fun hnew => ?_
    rw [scene_new] at hnew
    cases hnew

end Lane

/-! ## Rounds -/

namespace Session

variable {host : Host} {aside : String → Prop} {s : Session} {l : Lane} {changes : List Change}

/-- A session of one lane that a watch window follows by what has been reported. -/
structure Viewed (aside : String → Prop) (changes : List Change) (s : Session) (l : Lane) : Prop where
  lanes : s.lanes = [l]
  active : s.active = 0
  named : s.program.WellNamed
  globals : ∀ g ∈ s.bindings.globals, s.program.IsGlobal g.id
  kept : l.Kept s.program aside (.effect .proceed) s.world.memory
  shown : ∃ watch, Watch.blank.Follows aside changes watch ∧
    l.scene.Shown s.program.Names aside watch

/-- A session that has been started shows its lane. -/
theorem viewed_of_start {p : Program} {b : Bindings} {w : World} {init : LaneInit} {config : Config}
    {s₀ : Session} {first : StepState} (hnew : Session.new p b w [init] 0 config = .ok s₀)
    (hb : b.globals = []) (hw : w.memory = {}) (hp : p.WellNamed)
    (hinput : ∀ id, ¬ p.Names id (Lane.new 0 p init).input.name) (houtput : aside "output")
    (hstart : s₀.start.result = .ok [first]) :
    ∃ l, Viewed aside first.changes s₀.start.session l := by
  obtain ⟨-, analyses, bindings, live, world, -, hglobals, hs₀⟩ := new_ok hnew
  have hnone : Allocated [] b (Array.replicate p.idCount false) w := by
    refine ⟨by rw [hb]; rfl, by simp [hb], by simp [hb], fun {id q} hq => ?_, fun id => ?_⟩
    · rw [hw] at hq
      cases hq
    · rw [Array.getElem?_replicate]
      simp
  obtain ⟨hallocated, hlive⟩ := allocated_of_allocateGlobals hnone (by simpa using hp.globals) hglobals
  rw [List.nil_append] at hallocated
  rw [Array.size_replicate] at hlive
  have hlanes := lanesBy_start hstart
  have hlanes₀ : s₀.lanes = [Lane.new 0 p init] := by rw [hs₀]; rfl
  obtain ⟨hsession, hstates⟩ := start_ok hstart
  obtain ⟨l, hl⟩ := List.length_eq_one_iff.1 (hlanes.length.trans (congrArg List.length hlanes₀))
  obtain ⟨l₀, hl₀, henter⟩ := hlanes.lane 0 l (by rw [hl]; rfl)
  rw [hlanes₀] at hl₀
  cases hl₀
  have hprogram : s₀.program = p := by rw [hs₀]
  have hbindings : s₀.bindings = bindings := by rw [hs₀]
  have hworld : s₀.start.session.world = world := by rw [hsession, hs₀]
  have hactive : s₀.start.session.active = 0 := hlanes.active.trans (by rw [hs₀])
  rw [hprogram, hbindings, show s₀.liveGlobals = live by rw [hs₀]] at henter
  obtain ⟨⟨watch, hfollows, hshown⟩, houtput', hvalue⟩ :=
    Lane.shown_of_enter hp hinput hallocated hlive henter
  obtain ⟨hsize, hmemory⟩ := Lane.memory_of_enter henter
  have hglobal : ∀ {id}, (∃ d ∈ p.globals, d.id = id) → p.IsGlobal id := fun h => h
  have hchanges : first.changes = (l.initialState bindings).changes := by
    rw [activeLane?, hactive, hl, hbindings] at hstates
    cases hstates
    rfl
  refine ⟨l, hl, hactive, ?_, ?_, ?_, watch, hchanges ▸ hfollows, ?_⟩
  · rw [hlanes.program, hprogram]
    exact hp
  · rw [hlanes.program, hprogram, hlanes.bindings, hbindings]
    intro g hg
    obtain ⟨d, hd, hid, -⟩ := hallocated.name g hg
    exact ⟨d, hd, hid⟩
  · rw [hlanes.program, hprogram, hworld]
    refine ⟨hsize.trans Array.size_replicate, ?_, houtput' ▸ houtput, ?_⟩
    · rw [hmemory]
      refine ⟨?_, ?_, hallocated.pointer⟩
      · rintro id q ⟨⟩
      · rintro id ⟨⟩
    · intro id v a _ _ hv ha
      obtain ⟨g, hg, rfl, rfl⟩ := hvalue hv
      exact hallocated.shows g hg ha
  · rw [hlanes.program, hprogram]
    exact hshown

/-- Where the global variables of the only lane show what memory holds, to read them again changes
    nothing. -/
theorem refresh_of_shows {writes : Nat} (hlanes : s.lanes = [l])
    (h : ∀ g ∈ s.bindings.globals, ∀ {v a}, l.value? g.id = some v →
      s.world.memory.allocation? g.id = some a → v.Shows a.bytes)
    (hok : (s.refresh writes).result = .ok ()) : (s.refresh writes).session = s := by
  unfold refresh at hok ⊢
  split
  · rfl
  · next hwrites =>
      have hl : s.lanes[0]? = some l := by rw [hlanes]; rfl
      rw [if_neg hwrites, hlanes] at hok
      obtain ⟨l', hl', hrefreshed⟩ := refreshLanes_ok hl hok
      rw [Lane.refreshGlobals_of_shows h (by rw [hl'])] at hl'
      cases hl'
      rw [hlanes]
      refine (congrArg Progress.session hrefreshed).trans ?_
      show ({ s with lanes := s.lanes.set 0 l } : Session) = s
      rw [hlanes, List.set_cons_zero, ← hlanes]

/-- A round of a session of one lane is a step of the lane. -/
theorem round_of_alone (hlanes : s.lanes = [l]) (hactive : s.active = 0) (hl : ¬ l.isFinished)
    {states : List StepState} (hok : (s.round host).result = .ok states) :
    ∃ state stepped, (l.step (s.setting host 0) s.world).result = .ok state ∧
      states = [{ state with index := s.steps }] ∧
      stepped = { s.update 0 (l.step (s.setting host 0) s.world) with steps := s.steps + 1 } ∧
      (stepped.refresh s.world.memory.writes).result = .ok () ∧
      (s.round host).session =
        (stepped.refresh s.world.memory.writes).session.skipNops [true] := by
  obtain ⟨hstepped, hrefreshed, hsession⟩ := round_ok hok
  have hmask : s.mask = [true] := by
    rw [mask_of_alone hlanes]
    simpa using hl
  rw [hmask] at hstepped hrefreshed hsession
  obtain ⟨first, others, hfirst, hothers, hstepLanes, rfl⟩ := stepLanes_ok hstepped
  cases hothers
  obtain ⟨state, hstate, hturn, rfl⟩ := stepLane_ok (l := l) (by rw [hlanes]; rfl) hfirst
  rw [if_pos hactive.symm] at hturn ⊢
  rw [hstepLanes] at hrefreshed hsession
  exact ⟨state, _, hstate, List.append_nil _, hturn.symm ▸ rfl, hrefreshed, hsession⟩

/-- A watch window that shows the lane of a session follows the changes of a round. -/
theorem Viewed.round (h : Viewed aside changes s l) (hl : ¬ l.isFinished) {a : FunctionAnalysis}
    {i : Instr} (hnext : l.nextInstr s.program s.analyses = .ok (a, i))
    (hside : l.LeavesAside s.program.Names aside (s.setting host s.active) s.world.memory i)
    {state : StepState} (hok : (s.round host).result = .ok [state]) :
    ∃ l', Viewed aside (changes ++ i.shownChanges state.changes) (s.round host).session l' := by
  obtain ⟨state', stepped, hstate, hstates, hstepped, hrefreshed, hsession⟩ :=
    round_of_alone h.lanes h.active hl hok
  cases hstates
  rw [h.active] at hside
  obtain ⟨watch, hfollows, hshown⟩ := h.shown
  obtain ⟨⟨watch', hfollows', hshown'⟩, hkept⟩ :=
    Lane.follows_of_step h.named hl h.kept hshown hnext hside hstate
  have hlanes : stepped.lanes = [(l.step (s.setting host 0) s.world).lane] := by
    rw [hstepped, update, h.lanes]
    rfl
  have hshows : ∀ g ∈ stepped.bindings.globals, ∀ {v a},
      (l.step (s.setting host 0) s.world).lane.value? g.id = some v →
      stepped.world.memory.allocation? g.id = some a → v.Shows a.bytes := by
    subst hstepped
    intro g hg v a hv ha
    have hglobal := h.globals g hg
    rw [← Lane.value_scene (hkept.size ▸ h.named.index_lt_of_global hglobal)] at hv
    exact hkept.shows hglobal (Step.not_assigns_proceed _) hv ha
  rw [hsession, refresh_of_shows hlanes hshows hrefreshed, Session.skipNops, hlanes]
  subst hstepped
  refine ⟨(l.step (s.setting host 0) s.world).lane.skipNops s.program, rfl, h.active, h.named,
    h.globals, hkept.skipNops, watch', hfollows.append hfollows', ?_⟩
  rw [Lane.scene_skipNops]
  exact hshown'

/-! ## Sessions -/

/-- A round in which the reporting lane of a session steps. -/
structure Turn where
  /-- The session before the round. -/
  session : Session
  lane : Lane
  instr : Instr
  state : StepState

/-- The changes that a turn reports, without marks for the use of a resource. -/
def Turn.shown (t : Turn) : List Change := t.instr.shownChanges t.state.changes

/-- The names are left aside of what the instruction of a turn assigns without a report, and of what it
    gives a value after it was dropped. -/
def Turn.LeavesAside (t : Turn) (host : Host) (aside : String → Prop) : Prop :=
  t.lane.LeavesAside t.session.program.Names aside (t.session.setting host t.session.active)
    t.session.world.memory t.instr

/-- A turn makes no handle and gives no dropped identifier a value. -/
def Turn.IsPlain (t : Turn) : Prop :=
  t.instr.intrinsic? ∉ [some .annotateHandle, some .createHandle, some .createHandleFromBinding] ∧
    ∀ id ∈ t.lane.written t.session.world.memory t.instr, ¬ t.lane.Dropped id

instance : DecidablePred Turn.IsPlain := fun _ => inferInstanceAs (Decidable (_ ∧ _))

theorem Turn.IsPlain.leavesAside {t : Turn} (h : t.IsPlain) : t.LeavesAside host aside :=
  Lane.leavesAside_of_written h.1 h.2

/-- The next turn of a session whose reporting lane is not finished, and the session after it. -/
def nextTurn? (s : Session) (host : Host) : Option (Turn × Session) :=
  match s.activeLane? with
  | none => none
  | some l =>
    if l.isFinished then none
    else
      match l.nextInstr s.program s.analyses, (s.round host).result with
      | .ok (_, i), .ok [state] => some (⟨s, l, i, state⟩, (s.round host).session)
      | _, _ => none

/-- A number of turns, if there are so many, and the session after them. -/
def turns (host : Host) : (count : Nat) → (s : Session) → Option (List Turn × Session)
  | 0, s => some ([], s)
  | n + 1, s =>
    (s.nextTurn? host).bind fun (t, s) => (turns host n s).map fun (ts, s) => (t :: ts, s)

theorem nextTurn?_eq_some {t : Turn} {s' : Session} :
    s.nextTurn? host = some (t, s') ↔ t.session = s ∧ s.activeLane? = some t.lane ∧
      ¬ t.lane.isFinished ∧ (∃ a, t.lane.nextInstr s.program s.analyses = .ok (a, t.instr)) ∧
      (s.round host).result = .ok [t.state] ∧ s' = (s.round host).session := by
  unfold nextTurn?
  constructor
  · intro h
    split at h
    · cases h
    · next l hlane =>
        split at h
        · cases h
        · next hl =>
            split at h
            · next a i state hnext hround =>
                cases h
                exact ⟨rfl, hlane, hl, ⟨a, hnext⟩, hround, rfl⟩
            · cases h
  · rintro ⟨rfl, hlane, hl, ⟨a, hnext⟩, hround, rfl⟩
    rw [hlane]
    dsimp only
    rw [if_neg hl, hnext, hround]

theorem turns_succ {n : Nat} {ts : List Turn} {s' : Session} :
    turns host (n + 1) s = some (ts, s') ↔ ∃ t s₁ rest, s.nextTurn? host = some (t, s₁) ∧
      turns host n s₁ = some (rest, s') ∧ ts = t :: rest := by
  rw [turns]
  constructor
  · intro h
    obtain ⟨⟨t, s₁⟩, ht, h⟩ := Option.bind_eq_some_iff.1 h
    obtain ⟨⟨rest, s₂⟩, hrest, h⟩ := Option.map_eq_some_iff.1 h
    cases h
    exact ⟨t, s₁, rest, ht, hrest, rfl⟩
  · rintro ⟨t, s₁, rest, ht, hrest, rfl⟩
    rw [ht, Option.bind_some]
    dsimp only
    rw [hrest, Option.map_some]

theorem Viewed.shows (h : Viewed aside changes s l) :
    ∃ watch, Watch.blank.Follows aside changes watch ∧ l.ShownIn s.program aside watch := by
  obtain ⟨watch, hfollows, hshown⟩ := h.shown
  refine ⟨watch, hfollows, ?_, ?_, ?_⟩
  · intro hname
    exact (hshown.shows hname).2 ⟨rfl, .inl rfl⟩
  · intro id n hid hn hlive
    have hlive := Lane.mem_liveIds.1 hlive
    obtain ⟨v, hv⟩ := Option.isSome_iff_exists.1 (hshown.valued hlive)
    have hname : v.name = n := by
      rcases hshown.named hv with hnamed | ⟨-, hhides⟩
      · exact h.named.distinct.name_eq hid hnamed
      · exact absurd (hhides n hid) hn
    refine ⟨v, ?_, hname, (hshown.shows hn).2 ⟨hname, .inr ⟨id, hlive, hv⟩⟩⟩
    rw [← hv, Lane.value_scene (Lane.index_lt_of_live hlive)]
  · intro n v hn hw
    obtain ⟨rfl, hv⟩ := (hshown.shows hn).1 hw
    refine ⟨rfl, hv.imp_right ?_⟩
    rintro ⟨id, hlive, hv⟩
    refine ⟨id, Lane.mem_liveIds.2 hlive, hshown.name hv hn, ?_⟩
    rw [← hv, Lane.value_scene (Lane.index_lt_of_live hlive)]

theorem turns_append {n m : Nat} {ts ts' : List Turn} {s' s'' : Session}
    (h : turns host n s = some (ts, s')) (h' : turns host m s' = some (ts', s'')) :
    turns host (n + m) s = some (ts ++ ts', s'') := by
  induction n generalizing s ts with
  | zero =>
      cases h
      rwa [Nat.zero_add]
  | succ n ih =>
      obtain ⟨t, s₁, rest, ht, hrest, rfl⟩ := turns_succ.1 h
      rw [Nat.add_right_comm]
      exact turns_succ.2 ⟨t, s₁, _, ht, ih hrest, rfl⟩

/-- A session of one lane that has been started. -/
structure IsAlone (s : Session) : Prop where
  lane : ∃ l, s.lanes = [l]
  active : s.active = 0
  isStarted : s.isStarted

theorem IsAlone.round (h : s.IsAlone) (hrun : ¬ s.isFinished) {states : List StepState}
    (hok : (s.round host).result = .ok states) :
    (s.round host).session.IsAlone ∧
      ∃ t, s.nextTurn? host = some (t, (s.round host).session) ∧ states = [t.state] := by
  obtain ⟨l, hlanes⟩ := h.lane
  obtain ⟨l', hl', hl⟩ := isFinished_iff.1 hrun
  obtain rfl : l = l' := by
    rw [activeLane?, h.active, hlanes] at hl'
    exact Option.some.inj hl'
  obtain ⟨state, stepped, hstate, rfl, hstepped, -, hsession⟩ := round_of_alone hlanes h.active hl hok
  obtain ⟨a, i, -, hnext, -⟩ := Lane.step_cases hl hstate
  have hround := lanes_of_round hok
  refine ⟨⟨?_, hround.active.trans h.active, ?_⟩, ⟨s, l, i, _⟩,
    nextTurn?_eq_some.2 ⟨rfl, hl', hl, ⟨a, hnext⟩, hok, rfl⟩, rfl⟩
  · exact List.length_eq_one_iff.1 (hround.length.trans (by rw [hlanes]; rfl))
  · rw [hsession, skipNops, refresh_session, hstepped]
    exact h.isStarted

theorem IsAlone.turns {stop rounds : Nat} {acc : Array StepState} {states : List StepState}
    {done : Progress (List StepState)} (h : s.IsAlone)
    (hrun : runUntil host stop rounds s acc = some done) (hok : done.result = .ok states) :
    done.session.IsAlone ∧ ∃ n ts, Session.turns host n s = some (ts, done.session) ∧
      states = acc.toList ++ ts.map Turn.state := by
  induction rounds generalizing s acc with
  | zero => cases hrun
  | succ rounds ih =>
      rcases runUntil_ok hrun hok with ⟨-, hsession, rfl⟩ | ⟨hstop, -, more, hround, hrun⟩
      · rw [hsession]
        exact ⟨h, 0, [], rfl, by simp⟩
      · obtain ⟨h₁, t, ht, rfl⟩ := h.round (not_or.1 hstop).2 hround
        obtain ⟨h', n, ts, hts, hstates⟩ := ih h₁ hrun
        refine ⟨h', n + 1, t :: ts, turns_succ.2 ⟨t, _, ts, ht, hts, rfl⟩, ?_⟩
        rw [hstates]
        simp

/-- What calls of a session of one lane return is the state before the first step, and then the states
    of turns. -/
theorem Resumed.turns {p : Program} {b : Bindings} {w : World} {init : LaneInit} {config : Config}
    {s₀ : Session} (hnew : Session.new p b w [init] 0 config = .ok s₀) {calls : Nat}
    {states : List StepState} (h : Resumed host s₀ calls s states) :
    s = s₀ ∧ states = [] ∨ s.IsAlone ∧ ∃ first n ts, s₀.start.result = .ok [first] ∧
      Session.turns host n s₀.start.session = some (ts, s) ∧ states = first :: ts.map Turn.state := by
  induction h with
  | fresh => exact .inl ⟨rfl, rfl⟩
  | @resume calls rounds s states more done _ hresume hok ih =>
      right
      obtain ⟨-, hrun, -⟩ := resume_ok.1 ⟨hresume, hok⟩
      rcases ih with ⟨rfl, rfl⟩ | ⟨hs, first, n, ts, hstart, hts, rfl⟩
      · obtain ⟨-, analyses, bindings, live, world, -, -, hs⟩ := new_ok hnew
        rw [run, if_neg (by rw [hs]; simp)] at hrun
        cases hrun
        have hlanes := lanesBy_start hok
        obtain ⟨hsession, hstates⟩ := start_ok hok
        obtain ⟨l, hl⟩ := List.length_eq_one_iff.1 (hlanes.length.trans (by rw [hs]; rfl))
        have hactive : s.start.session.active = 0 := hlanes.active.trans (by rw [hs])
        have hone : ∃ first, more = [first] := by
          rw [activeLane?, hactive, hl] at hstates
          exact ⟨_, hstates⟩
        obtain ⟨first, rfl⟩ := hone
        refine ⟨⟨⟨l, hl⟩, hactive, by rw [hsession]⟩, first, 0, [], hok, rfl, rfl⟩
      · rw [run, if_pos hs.isStarted] at hrun
        obtain ⟨hdone, m, ts', hts', rfl⟩ := hs.turns hrun hok
        exact ⟨hdone, first, n + m, ts ++ ts', hstart, turns_append hts hts', by simp⟩

/-- A watch window that shows the lane of a session follows the changes of all turns. -/
theorem Viewed.turns (h : Viewed aside changes s l) {n : Nat} {ts : List Turn} {s' : Session}
    (hturns : turns host n s = some (ts, s')) (hside : ∀ t ∈ ts, t.LeavesAside host aside) :
    s'.program = s.program ∧ ∃ l', Viewed aside (changes ++ ts.flatMap Turn.shown) s' l' := by
  induction n generalizing s l changes ts with
  | zero =>
      cases hturns
      exact ⟨rfl, l, by simpa using h⟩
  | succ n ih =>
      obtain ⟨t, s₁, rest, ht, hrest, rfl⟩ := turns_succ.1 hturns
      obtain ⟨hsession, hlane, hl, ⟨a, hnext⟩, hround, rfl⟩ := nextTurn?_eq_some.1 ht
      rw [activeLane?, h.active, h.lanes] at hlane
      obtain rfl : l = t.lane := Option.some.inj hlane
      have hside₁ := hside t List.mem_cons_self
      rw [Turn.LeavesAside, hsession] at hside₁
      obtain ⟨l₁, h₁⟩ := h.round hl hnext hside₁ hround
      obtain ⟨hprogram, l', h'⟩ := ih h₁ hrest fun t ht => hside t (List.mem_cons_of_mem _ ht)
      refine ⟨hprogram.trans (lanes_of_round hround).program, l', ?_⟩
      rw [List.flatMap_cons, ← List.append_assoc]
      exact h'

/-- The reported changes replay to the state of the lane. What calls return is the state before the
    first step and then the states of turns; and after each turn, a watch window that has followed all
    changes so far shows the lane. -/
theorem changes_replay {p : Program} {b : Bindings} {w : World} {init : LaneInit} {config : Config}
    {s₀ : Session} (hnew : Session.new p b w [init] 0 config = .ok s₀) (hb : b.globals = [])
    (hw : w.memory = {}) (hp : p.WellNamed)
    (hinput : ∀ id, ¬ p.Names id (Lane.new 0 p init).input.name) (houtput : aside "output") :
    (∀ calls s states, Resumed host s₀ calls s states → states ≠ [] →
      ∃ first n ts, s₀.start.result = .ok [first] ∧
        turns host n s₀.start.session = some (ts, s) ∧ states = first :: ts.map Turn.state) ∧
    ∀ first n ts s, s₀.start.result = .ok [first] →
      turns host n s₀.start.session = some (ts, s) → (∀ t ∈ ts, t.LeavesAside host aside) →
      ∃ watch l, s.activeLane? = some l ∧
        Watch.blank.Follows aside (first.changes ++ ts.flatMap Turn.shown) watch ∧
        l.ShownIn p aside watch := by
  constructor
  · intro calls s states h hstates
    rcases h.turns hnew with ⟨-, rfl⟩ | ⟨-, hturns⟩
    · exact absurd rfl hstates
    · exact hturns
  · intro first n ts s hstart hturns hside
    obtain ⟨l₀, h₀⟩ := viewed_of_start hnew hb hw hp hinput houtput hstart
    obtain ⟨hprogram, l, h⟩ := h₀.turns hturns hside
    have hprogram : s.program = p :=
      hprogram.trans ((lanesBy_start hstart).program.trans (fresh_of_new hnew).program)
    obtain ⟨watch, hfollows, hshows⟩ := h.shows
    exact ⟨watch, l, by rw [activeLane?, h.active, h.lanes]; rfl, hfollows, hprogram ▸ hshows⟩

/-- A program that stores to an element of an array, and counts in a global variable. -/
def storeCountLoad : Program :=
  { stage := .compute
    globals := [{ id := ⟨0⟩, name := "total", ty := .pointer (.int 32) .stack, init := some (.int 32 7) }]
    functions := #[{
      name := "storeCountLoad"
      blocks := #[{}]
      instrs := #[
        { op := .alloca, ty := .pointer (.array (.int 32) 2) .stack, result := some ⟨1⟩,
          name := some "slots" },
        { op := .getElementPtr, ty := .pointer (.int 32) .stack, result := some ⟨2⟩,
          args := [.ref ⟨1⟩, .const (.int 32 0), .const (.int 32 1)] },
        { op := .store, args := [.ref ⟨2⟩, .const (.int 32 5)] },
        { op := .atomicAdd, ty := .int 32, result := some ⟨3⟩,
          args := [.ref ⟨0⟩, .const (.int 32 1)] },
        { op := .load, ty := .array (.int 32) 2, result := some ⟨4⟩, args := [.ref ⟨1⟩] },
        { op := .ret }] }]
    idCount := 5 }

/-- Five turns of this program replay: the window shows the array with the stored element, and the
    global variable with the new count. -/
theorem storeCountLoad_replays :
    ∃ s₀ first ts s, Session.new storeCountLoad {} {} [{}] 0 {} = .ok s₀ ∧ s₀.start.result = .ok [first] ∧
      turns .unbound 5 s₀.start.session = some (ts, s) ∧
      ∃ watch l, s.activeLane? = some l ∧
        Watch.blank.Follows (· = "output") (first.changes ++ ts.flatMap Turn.shown) watch ∧
        l.ShownIn storeCountLoad (· = "output") watch ∧
        (watch "slots").any (·.members.map (·.get 0) == [0, 5]) ∧ (watch "total").any (·.get 0 == 8) := by
  have h : ∃ s₀, Session.new storeCountLoad {} {} [{}] 0 {} = .ok s₀ ∧
      ∃ states, s₀.start.result = .ok states ∧ states.length = 1 ∧
      ∃ done, turns .unbound 5 s₀.start.session = some done ∧ (∀ t ∈ done.1, t.IsPlain) ∧
      ∃ l, done.2.activeLane? = some l ∧ [⟨0⟩, ⟨1⟩] ⊆ l.liveIds ∧
        (l.value? ⟨1⟩).any (·.members.map (·.get 0) == [0, 5]) ∧ (l.value? ⟨0⟩).any (·.get 0 == 8) := by
    decide +kernel
  obtain ⟨s₀, hnew, states, hstart, hone, ⟨ts, s⟩, hturns, hplain, l, hl, hlive, hstored, hcounted⟩ := h
  obtain ⟨first, rfl⟩ := List.length_eq_one_iff.1 hone
  have hnames : ∀ x ∈ storeCountLoad.named, x.2 ≠ "input" := by decide +kernel
  have hinput : ∀ id, ¬ storeCountLoad.Names id "input" := fun _ hid => hnames _ (Program.names_iff.1 hid) rfl
  obtain ⟨watch, l', hl', hfollows, hshown⟩ :=
    (@changes_replay .unbound (· = "output") storeCountLoad {} {} {} {} s₀ hnew rfl rfl (by decide) hinput rfl).2
      first 5 ts s hstart hturns fun t ht => (hplain t ht).leavesAside
  obtain rfl : l' = l := Option.some.inj (hl'.symm.trans hl)
  have hslots : storeCountLoad.Names ⟨1⟩ "slots" := Program.names_iff.2 (by decide)
  have htotal : storeCountLoad.Names ⟨0⟩ "total" := Program.names_iff.2 (by decide)
  obtain ⟨slots, hv, -, hwatch⟩ := hshown.live hslots (by decide) (hlive (by simp))
  obtain ⟨total, hv', -, hwatch'⟩ := hshown.live htotal (by decide) (hlive (by simp))
  rw [hv, ← hwatch] at hstored
  rw [hv', ← hwatch'] at hcounted
  exact ⟨s₀, first, ts, s, hnew, hstart, hturns, watch, l', hl', hfollows, hshown, hstored, hcounted⟩

/-- A program that makes a handle, and adds two numbers in a loop of two blocks. -/
def sumInLoop : Program :=
  { stage := .compute
    functions := #[{
      name := "sumInLoop"
      blocks := #[{}, { preds := [0, 2] }, { preds := [1] }, { preds := [2] }]
      instrs := #[
        { op := .call, ty := .handle, result := some ⟨0⟩,
          args := [.const (.int 32 0), .const (.int 32 0), .const (.int 32 0)],
          callee := some (.intrinsic .createHandle) },
        { op := .br, args := [.block 1] },
        { op := .add, ty := .int 32, result := some ⟨1⟩,
          args := [.const (.int 32 1), .const (.int 32 1)] },
        { op := .br, args := [.block 2] },
        { op := .br, args := [.block 3, .block 1, .const (.int 1 0)] },
        { op := .ret }] }]
    resources := [{ name := "tex", cls := .srv }]
    idCount := 2 }

/-- With the resource set up under its name, the handle is in scope after the first turn, but a window
    shows the input alone. With the handle left aside, no window follows the sixth turn, which reports
    an update of the sum that was dropped. -/
theorem sumInLoop_is_lost :
    ∃ s₀ first, Session.new sumInLoop (({} : Bindings).addReadOnly "tex" {}) {} [{}] 0 {} = .ok s₀ ∧
      sumInLoop.WellNamed ∧ (∀ id, ¬ sumInLoop.Names id "input") ∧ s₀.start.result = .ok [first] ∧
      (∃ ts s l, turns .unbound 1 s₀.start.session = some (ts, s) ∧ s.activeLane? = some l ∧
        l.liveIds = [⟨0⟩] ∧
        (∀ watch, Watch.blank.Follows (· = "output") (first.changes ++ ts.flatMap Turn.shown) watch →
          ∀ n, n ≠ "input" → watch n = none) ∧
        ¬ ∃ watch, Watch.blank.Follows (· = "output") (first.changes ++ ts.flatMap Turn.shown) watch ∧
          l.ShownIn sumInLoop (· = "output") watch) ∧
      ∃ ts s, turns .unbound 6 s₀.start.session = some (ts, s) ∧
        ∀ watch, ¬ Watch.blank.Follows (fun n => n = "output" ∨ n = "tex" ∨ n = "_0")
          (first.changes ++ ts.flatMap Turn.shown) watch := by
  have h : ∃ s₀, Session.new sumInLoop (({} : Bindings).addReadOnly "tex" {}) {} [{}] 0 {} = .ok s₀ ∧
      ∃ states, s₀.start.result = .ok states ∧ states.length = 1 ∧
      (∃ done, turns .unbound 1 s₀.start.session = some done ∧
        Watch.namesShown? (· = "output") []
          (states.flatMap StepState.changes ++ done.1.flatMap Turn.shown) = some ["input"] ∧
        ∃ l, done.2.activeLane? = some l ∧ l.liveIds = [⟨0⟩]) ∧
      ∃ done, turns .unbound 6 s₀.start.session = some done ∧
        Watch.namesShown? (fun n => n = "output" ∨ n = "tex" ∨ n = "_0") []
          (states.flatMap StepState.changes ++ done.1.flatMap Turn.shown) = none := by
    decide +kernel
  obtain ⟨s₀, hnew, states, hstart, hone, ⟨⟨ts, s⟩, hturns, hshown, l, hl, hlive⟩, ⟨ts', s'⟩, hturns',
    hlost⟩ := h
  obtain ⟨first, rfl⟩ := List.length_eq_one_iff.1 hone
  rw [List.flatMap_singleton] at hshown hlost
  have hblank : ∀ n, (Watch.blank n).isSome ↔ n ∈ ([] : List String) := fun n => by simp [Watch.blank]
  have honly : ∀ watch, Watch.blank.Follows (· = "output") (first.changes ++ ts.flatMap Turn.shown) watch →
      ∀ n, n ≠ "input" → watch n = none := by
    intro watch hfollows n hn
    obtain ⟨shown, hshown', hnames⟩ := hfollows.names hblank
    cases hshown.symm.trans hshown'
    simpa [hn] using hnames n
  refine ⟨s₀, first, hnew, by decide, ?_, hstart, ⟨ts, s, l, hturns, hl, hlive, honly, ?_⟩, ts', s', hturns',
    fun watch hfollows => ?_⟩
  · have hnames : ∀ x ∈ sumInLoop.named, x.2 ≠ "input" := by decide +kernel
    exact fun _ hid => hnames _ (Program.names_iff.1 hid) rfl
  · rintro ⟨watch, hfollows, hshown⟩
    have hname : sumInLoop.Names ⟨0⟩ "_0" := Program.names_iff.2 (by decide)
    obtain ⟨v, -, -, hwatch⟩ := hshown.live hname (by decide) (by rw [hlive]; simp)
    rw [honly watch hfollows "_0" (by decide)] at hwatch
    cases hwatch
  · obtain ⟨shown, hshown', -⟩ := hfollows.names hblank
    cases hlost.symm.trans hshown'

end Session

end Lockstep
