import Lockstep.Host.Unbound
import Lockstep.Proofs.Flow.Names
import Lockstep.Proofs.Lane.Quiet
import Lockstep.Proofs.Session.Globals
import Lockstep.Proofs.Session.Mask
import Lockstep.Proofs.Session.Rounds

set_option autoImplicit false

/-! # The choice of the reporting lane

Two sessions that differ in which lane reports do the same in every round, as long as both succeed:
they make the same requests and leave the same memory and resources, and their lanes have the same
values but for the output (`Session.recording_is_transparent`). -/

namespace Lockstep

/-- The operands of phi nodes are identifiers of the program. -/
structure Program.PhisWithin (p : Program) : Prop where
  index_lt : ∀ {f i id}, f ∈ p.functions → i ∈ f.instrs → i.op = .phi → .ref id ∈ i.args →
    id.index < p.idCount

instance (p : Program) : Decidable p.PhisWithin :=
  decidable_of_iff (∀ f ∈ p.functions, ∀ i ∈ f.instrs, i.op = .phi → ∀ o ∈ i.args,
      o.id?.all (·.index < p.idCount))
    ⟨fun h => ⟨fun hf hi hop hid => by simpa [Operand.id?] using h _ hf _ hi hop _ hid⟩,
      fun h f hf i hi hop o ho => by
        cases o with
        | ref id => simpa [Operand.id?] using h.index_lt hf hi hop ho
        | _ => rfl⟩

/-! ## What a lane executes -/

variable {p : Program}

/-- The instruction that a lane executes names identifiers of the program, unless it is a marker. -/
theorem Lane.named_of_nextInstr {as : Analyses} (has : FunctionAnalysis.ofProgram p = .ok as)
    (hphis : p.PhisWithin) {l : Lane} {a : FunctionAnalysis} {i : Instr}
    (h : l.nextInstr p as = .ok (a, i)) :
    (i.isNop ∨ i.Within p.idCount) ∧ ∀ origin, ∀ id ∈ a.phiReadsOf origin, id.index < p.idCount := by
  obtain ⟨ha, f, hf, hi⟩ := nextInstr_eq_ok h
  obtain ⟨offset, ha⟩ := FunctionAnalysis.ofFunction_of_ofProgram has ha
  obtain ⟨f', hf', hdescribes⟩ := FunctionAnalysis.describes_of_ofFunction ha
  obtain rfl : f = f' := Option.some.inj (hf.symm.trans hf')
  have hmem := Array.mem_of_getElem? hf
  constructor
  · by_cases hnop : i.isNop
    · exact .inl hnop
    · refine .inr ⟨fun hid => ?_, fun hid => ?_⟩
      · by_cases hop : i.op = .phi
        · exact hphis.index_lt hmem (Array.mem_of_getElem? hi) hop hid
        · refine hdescribes.named hi ?_
          rw [Instr.names, if_neg hnop]
          exact List.mem_append_right _ (Instr.mem_reads.2 ⟨hnop, hop, hid⟩)
      · refine hdescribes.named hi ?_
        rw [Instr.names, if_neg hnop, hid]
        exact List.mem_append_left _ (List.mem_singleton_self _)
  · intro origin id hid
    obtain ⟨f', i, hf', hi, hop, harg⟩ := FunctionAnalysis.phi_of_phiReads ha hid
    exact hphis.index_lt (Array.mem_of_getElem? hf') hi hop harg

namespace Session

/-! ## Rounds of two sessions -/

/-- Two sessions of a program differ at most in what is reported, and no pointer leads to an output. -/
structure Alike (p : Program) (s s' : Session) : Prop where
  analysed : FunctionAnalysis.ofProgram p = .ok s.analyses
  analyses : s'.analyses = s.analyses
  program : s.program = p ∧ s'.program = p
  bindings : s'.bindings = s.bindings
  lanes : List.Forall₂ (fun l l' : Lane =>
    l'.quiet = l.quiet ∧ l.cells.size = p.idCount ∧ l.memory.Within p.idCount) s.lanes s'.lanes
  world : s'.world = s.world
  shared : s.world.memory.Within p.idCount

namespace Alike

variable {s s' : Session} {host : Host} {states states' : List StepState}

theorem update (h : Alike p s s') (index : Nat) {done done' : Stepped}
    (hR : Step.Quietly False True p.idCount done.machine done'.machine) :
    Alike p (s.update index done) (s'.update index done') where
  analysed := h.analysed
  analyses := h.analyses
  program := h.program
  bindings := h.bindings
  lanes := forall₂_set h.lanes index ⟨hR.lane, hR.size, hR.own trivial⟩
  world := hR.world
  shared := hR.shared trivial

/-- What is counted does not matter. -/
theorem counted (h : Alike p s s') (steps steps' : Nat) :
    Alike p { s with steps } { s' with steps := steps' } :=
  ⟨h.analysed, h.analyses, h.program, h.bindings, h.lanes, h.world, h.shared⟩

theorem lane (h : Alike p s s') (index : Nat) :
    (s.lanes[index]? = none ∧ s'.lanes[index]? = none) ∨ ∃ l l', s.lanes[index]? = some l ∧
      s'.lanes[index]? = some l' ∧ l'.quiet = l.quiet ∧ l.cells.size = p.idCount ∧
      l.memory.Within p.idCount := by
  obtain ⟨hlength, hget⟩ := List.forall₂_iff_get.1 h.lanes
  by_cases hindex : index < s.lanes.length
  · refine .inr ⟨_, _, List.getElem?_eq_getElem hindex, List.getElem?_eq_getElem (hlength ▸ hindex), ?_⟩
    exact hget index hindex (hlength ▸ hindex)
  · have hindex := Nat.le_of_not_lt hindex
    exact .inl ⟨List.getElem?_eq_none hindex, List.getElem?_eq_none (hlength ▸ hindex)⟩

theorem stepLane (h : Alike p s s') (hphis : p.PhisWithin) (index : Nat)
    (hok : (s.stepLane host index).result = .ok states)
    (hok' : (s'.stepLane host index).result = .ok states') :
    Alike p (s.stepLane host index).session (s'.stepLane host index).session := by
  rcases h.lane index with ⟨hl, hl'⟩ | ⟨l, l', hl, hl', hquiet, hsize, hown⟩
  · rw [stepLane_of_none hl, stepLane_of_none hl']
    exact h
  · obtain ⟨state, hstate, hsession, -⟩ := stepLane_ok hl hok
    obtain ⟨state', hstate', hsession', -⟩ := stepLane_ok hl' hok'
    rw [hsession, hsession']
    refine (h.update index ?_).counted _ _
    have hprogram : s'.program = s.program := h.program.2.trans h.program.1.symm
    have hR : Step.Quietly False True p.idCount { lane := l, world := s.world }
        { lane := l', world := s'.world } :=
      ⟨hquiet, h.world, hsize, False.elim, fun _ => hown, fun _ => h.shared⟩
    have hgroup := h.lanes.imp fun l l' ⟨hl, hsize, _⟩ => (⟨hl, hsize⟩ : l'.quiet = l.quiet ∧ _)
    refine Lane.quiet_of_steps hR hprogram h.bindings h.analyses rfl hgroup ?_ hstate hstate'
    intro a i hnext
    rw [show (s.setting host index).program = p from h.program.1] at hnext
    exact Lane.named_of_nextInstr h.analysed hphis hnext

theorem stepLanes (h : Alike p s s') (hphis : p.PhisWithin) {index : Nat} {mask : List Bool}
    (hok : (s.stepLanes host index mask).result = .ok states)
    (hok' : (s'.stepLanes host index mask).result = .ok states') :
    Alike p (s.stepLanes host index mask).session (s'.stepLanes host index mask).session := by
  induction mask generalizing s s' index states states' with
  | nil => exact h
  | cons runs rest ih =>
      cases runs with
      | false => exact ih h hok hok'
      | true =>
          obtain ⟨_, _, hfirst, hrest, hsession, -⟩ := stepLanes_ok hok
          obtain ⟨_, _, hfirst', hrest', hsession', -⟩ := stepLanes_ok hok'
          rw [hsession, hsession']
          exact ih (h.stepLane hphis index hfirst hfirst') hrest hrest'

theorem refreshLanes (h : Alike p s s') {index count : Nat}
    (hok : (s.refreshLanes index count).result = .ok ())
    (hok' : (s'.refreshLanes index count).result = .ok ()) :
    Alike p (s.refreshLanes index count).session (s'.refreshLanes index count).session := by
  induction count generalizing s s' index with
  | zero => exact h
  | succ count ih =>
      rcases h.lane index with ⟨hl, hl'⟩ | ⟨l, l', hl, hl', hquiet, hsize, hown⟩
      · rw [Session.refreshLanes, Session.refreshLanes, hl, hl']
        exact h
      · obtain ⟨l₁, hl₁, hrest⟩ := refreshLanes_ok hl hok
        obtain ⟨l₁', hl₁', hrest'⟩ := refreshLanes_ok hl' hok'
        rw [hrest] at hok ⊢
        rw [hrest'] at hok' ⊢
        refine ih ?_ hok hok'
        have hframe := Lane.frame_refreshGlobals l s.world.memory s.bindings.globals
        have hrefreshed := (Lane.quiet_refreshGlobals hquiet s.world.memory s.bindings.globals).2
        have hmemory := l.memory_refreshGlobals s.world.memory s.bindings.globals
        rw [h.world, h.bindings] at hl₁'
        rw [hl₁] at hframe hrefreshed hmemory
        rw [hl₁'] at hrefreshed
        refine ⟨h.analysed, h.analyses, h.program, h.bindings, forall₂_set h.lanes index ?_, h.world,
          h.shared⟩
        exact ⟨hrefreshed, (Lane.size_cells_of_frame hframe).trans hsize, hmemory ▸ hown⟩

theorem refresh (h : Alike p s s') {writes : Nat} (hok : (s.refresh writes).result = .ok ())
    (hok' : (s'.refresh writes).result = .ok ()) :
    Alike p (s.refresh writes).session (s'.refresh writes).session := by
  unfold Session.refresh at hok hok' ⊢
  rw [h.world] at hok' ⊢
  split
  · exact h
  · next hwrites =>
      rw [if_neg hwrites] at hok hok'
      rw [← h.lanes.length_eq] at hok' ⊢
      exact h.refreshLanes hok hok'

theorem skipNops (h : Alike p s s') (mask : List Bool) :
    Alike p (s.skipNops mask) (s'.skipNops mask) := by
  refine ⟨h.analysed, h.analyses, h.program, h.bindings, ?_, h.world, h.shared⟩
  obtain ⟨hlength, hget⟩ := List.forall₂_iff_get.1 h.lanes
  refine List.forall₂_iff_get.2 ⟨by simpa [Session.skipNops] using hlength, fun j hj hj' => ?_⟩
  have hlanes := hget j (by simpa [Session.skipNops] using hj) (by simpa [Session.skipNops] using hj')
  simp only [Session.skipNops, List.get_eq_getElem, List.getElem_mapIdx, h.program.1, h.program.2]
    at hlanes ⊢
  obtain ⟨hquiet, hsize, hown⟩ := hlanes
  split
  · refine ⟨Lane.quiet_skipNops hquiet p, ?_, ?_⟩
    · rwa [Lane.cells_skipNops]
    · rwa [Lane.memory_skipNops]
  · exact ⟨hquiet, hsize, hown⟩

theorem quiets (h : Alike p s s') : s'.lanes.map Lane.quiet = s.lanes.map Lane.quiet := by
  have hmap : ∀ ls ls' : List Lane, List.Forall₂ (fun l l' : Lane =>
      l'.quiet = l.quiet ∧ l.cells.size = p.idCount ∧ l.memory.Within p.idCount) ls ls' →
      ls'.map Lane.quiet = ls.map Lane.quiet := by
    intro ls ls' hlanes
    induction hlanes with
    | nil => rfl
    | cons hl _ ih => rw [List.map_cons, List.map_cons, hl.1, ih]
  exact hmap _ _ h.lanes

theorem mask (h : Alike p s s') : s'.mask = s.mask := by
  refine mask_of_places (h.program.2.trans h.program.1.symm) h.analyses ?_
  have hplace : ∀ ls : List Lane, ls.map Lane.place = (ls.map Lane.quiet).map Lane.place := by
    intro ls
    rw [List.map_map]
    rfl
  rw [hplace s'.lanes, hplace s.lanes, h.quiets]

theorem round (h : Alike p s s') (hphis : p.PhisWithin) (hok : (s.round host).result = .ok states)
    (hok' : (s'.round host).result = .ok states') :
    Alike p (s.round host).session (s'.round host).session := by
  obtain ⟨hstep, hrefresh, hsession⟩ := round_ok hok
  obtain ⟨hstep', hrefresh', hsession'⟩ := round_ok hok'
  rw [h.mask] at hstep' hrefresh' hsession'
  rw [h.world] at hrefresh' hsession'
  rw [hsession, hsession']
  exact ((h.stepLanes hphis hstep hstep').refresh hrefresh hrefresh').skipNops _

theorem advance (h : Alike p s s') (hphis : p.PhisWithin) {n : Nat} {t t' : Session}
    (ht : s.advance host n = .ok t) (ht' : s'.advance host n = .ok t') : Alike p t t' := by
  induction n generalizing s s' with
  | zero =>
      cases ht
      cases ht'
      exact h
  | succ n ih =>
      obtain ⟨_, hok, ht⟩ := advance_succ.1 ht
      obtain ⟨_, hok', ht'⟩ := advance_succ.1 ht'
      exact ih (h.round hphis hok hok') ht ht'

end Alike

/-! ## Sessions that are set up alike -/

theorem within_allocateGlobal {n : Nat} {w w' : World} {g : GlobalDecl} {v : Variable}
    (h : w.allocateGlobal g = .ok (v, w')) (hid : g.id.index < n) (hw : w.memory.Within n) :
    w'.memory.Within n := by
  obtain ⟨pointee, -, -, -, -, heq | ⟨bytes, hwrite⟩⟩ := World.allocateGlobal_ok h
  · exact heq ▸ hw.allocate hid pointee true
  · exact (hw.allocate hid pointee true).write hwrite

theorem within_allocateGlobals {n : Nat} {b b' : Bindings} {live live' : Array Bool} {w w' : World}
    {gs : List GlobalDecl} (h : allocateGlobals b live w gs = .ok (b', live', w'))
    (hlive : live.size = n) (hw : w.memory.Within n) : w'.memory.Within n := by
  induction gs generalizing b live w with
  | nil =>
      cases h
      exact hw
  | cons g gs ih =>
      obtain ⟨v, w₁, hg, hid, h⟩ := allocateGlobals_cons h
      exact ih h (Array.size_setIfInBounds.trans hlive) (within_allocateGlobal hg (hlive ▸ hid) hw)

theorem enterLanes_active (s : Session) (active index count : Nat) :
    ({ s with active } : Session).enterLanes index count =
      { session := { (s.enterLanes index count).session with active }
        result := (s.enterLanes index count).result } := by
  induction count generalizing s index with
  | zero => rfl
  | succ count ih =>
      rw [enterLanes, enterLanes]
      dsimp only
      split
      · rfl
      · split
        · rfl
        · exact ih { s with lanes := s.lanes.set index _ } (index + 1)

/-- Which lane reports does not matter for how lanes enter the program. -/
theorem start_active (s : Session) (active : Nat) {states : List StepState}
    (h : s.start.result = .ok states) :
    ({ s with active } : Session).start.session = { s.start.session with active } := by
  have hentered := enterLanes_active { s with isStarted := true } active 0 s.lanes.length
  unfold start at h ⊢
  dsimp only at h ⊢
  rw [hentered]
  dsimp only
  split at h
  · cases h
  · rfl

/-- A session that has been started is alike to itself, whichever lane reports. -/
theorem Alike.of_start {b : Bindings} {w : World} {inits : List LaneInit} {active active' : Nat}
    {config : Config} {s₀ s₀' : Session} {states : List StepState} (hw : w.memory.Within p.idCount)
    (hnew : Session.new p b w inits active config = .ok s₀)
    (hnew' : Session.new p b w inits active' config = .ok s₀')
    (hstart : s₀.start.result = .ok states) : Alike p s₀.start.session s₀'.start.session := by
  have hfresh := fresh_of_new hnew
  have hlanes := lanesBy_start hstart
  have hself : List.Forall₂ (fun l l' : Lane =>
      l'.quiet = l.quiet ∧ l.cells.size = p.idCount ∧ l.memory.Within p.idCount)
      s₀.start.session.lanes s₀.start.session.lanes := by
    refine List.forall₂_same.2 fun l hl => ⟨rfl, ?_⟩
    obtain ⟨index, init, henter⟩ := hfresh.enter_of_start hstart hl
    obtain ⟨hsize, hmemory⟩ := Lane.memory_of_enter henter
    rw [hsize, hmemory]
    exact ⟨Array.size_replicate, ⟨fun h => nomatch h⟩⟩
  obtain ⟨-, as, b', live, w', has, hglobals, rfl⟩ := new_ok hnew
  obtain ⟨-, as', b'', live', w'', has', hglobals', rfl⟩ := new_ok hnew'
  cases has.symm.trans has'
  cases hglobals.symm.trans hglobals'
  rw [start_active _ active' hstart]
  refine ⟨?_, rfl, ⟨hlanes.program, hlanes.program⟩, rfl, hself, rfl, ?_⟩
  · rwa [hlanes.analyses]
  · rw [(start_ok hstart).1]
    exact within_allocateGlobals hglobals Array.size_replicate hw

/-- The reporting lane does what it would do if it did not report, in every step that succeeds: it
    makes the same requests and leaves the same memory and resources, and differs at most in the
    output and in the resources whose use it has reported. So the choice of the reporting lane does not
    matter for what the lanes of a session compute. -/
theorem recording_is_transparent (hphis : p.PhisWithin) :
    (∀ (l : Lane) (s : Setting) (w : World) (state : StepState), s.program = p → s.recording →
        (l.step s w).result = .ok state →
      (∃ state', (l.step { s with recording := false } w).result = .ok state') ∧
        (l.step { s with recording := false } w).world = (l.step s w).world ∧
        (l.step { s with recording := false } w).lane.quiet = (l.step s w).lane.quiet) ∧
      ∀ (b : Bindings) (w : World) (inits : List LaneInit) (config : Config) (host : Host)
        (active active' n : Nat) (s₀ s₀' s s' : Session) (states : List StepState),
        w.memory.Within p.idCount →
        Session.new p b w inits active config = .ok s₀ →
        Session.new p b w inits active' config = .ok s₀' → s₀.start.result = .ok states →
        s₀.start.session.advance host n = .ok s → s₀'.start.session.advance host n = .ok s' →
        s'.world = s.world ∧ s'.lanes.map Lane.quiet = s.lanes.map Lane.quiet := by
  refine ⟨fun l s w state _ _ hok => Lane.quiet_of_recording hok, ?_⟩
  intro b w inits config host active active' n s₀ s₀' s s' states hw hnew hnew' hstart hs hs'
  have h := (Alike.of_start hw hnew hnew' hstart).advance hphis hs hs'
  exact ⟨h.world, h.quiets⟩

/-- A pixel program that puts out its number, or seven if that is not zero. -/
def outputNumberOrSeven : Program :=
  { stage := .pixel
    functions := #[{
      name := "outputNumberOrSeven"
      blocks := #[{}, { preds := [0] }, { preds := [0, 1] }]
      instrs := #[
        { op := .call, ty := .int 32, result := some ⟨0⟩,
          callee := some (.intrinsic .flattenedThreadIdInGroup) },
        { op := .br, args := [.block 1, .block 2, .ref ⟨0⟩] },
        { op := .br, args := [.block 2] },
        { op := .phi, ty := .int 32, result := some ⟨1⟩,
          args := [.ref ⟨0⟩, .block 0, .const (.int 32 7), .block 1] },
        { op := .call, args := [.const (.int 32 0), .const (.int 32 0), .const (.int 32 0), .ref ⟨1⟩],
          callee := some (.intrinsic .storeOutput) },
        { op := .ret }] }]
    outputs := [{ name := "colour", elem := .uInt, rows := 1, columns := 1 }]
    idCount := 2 }

/-- Whichever lane of this program reports, only that lane has an output in the end, and otherwise the
    lanes are the same. -/
theorem outputNumberOrSeven_is_transparent :
    ∃ s₀ s₀' s s', Session.new outputNumberOrSeven {} {} [.numbered 0, .numbered 1] 0 {} = .ok s₀ ∧
      Session.new outputNumberOrSeven {} {} [.numbered 0, .numbered 1] 1 {} = .ok s₀' ∧
      s₀.start.session.advance .unbound 6 = .ok s ∧ s₀'.start.session.advance .unbound 6 = .ok s' ∧
      (s.lanes.map fun l => l.output.members.map (·.get 0)) = [[0], [0]] ∧
      (s'.lanes.map fun l => l.output.members.map (·.get 0)) = [[0], [7]] ∧
      s'.world = s.world ∧ s'.lanes.map Lane.quiet = s.lanes.map Lane.quiet := by
  have h : ∃ s₀, Session.new outputNumberOrSeven {} {} [.numbered 0, .numbered 1] 0 {} = .ok s₀ ∧
      ∃ s₀', Session.new outputNumberOrSeven {} {} [.numbered 0, .numbered 1] 1 {} = .ok s₀' ∧
      ∃ states, s₀.start.result = .ok states ∧
      ∃ s, s₀.start.session.advance .unbound 6 = .ok s ∧
      ∃ s', s₀'.start.session.advance .unbound 6 = .ok s' ∧
        (s.lanes.map fun l => l.output.members.map (·.get 0)) = [[0], [0]] ∧
        (s'.lanes.map fun l => l.output.members.map (·.get 0)) = [[0], [7]] := by
    decide +kernel
  obtain ⟨s₀, hnew, s₀', hnew', states, hstart, s, hs, s', hs', hout, hout'⟩ := h
  have hphis : outputNumberOrSeven.PhisWithin := by decide
  obtain ⟨-, hsessions⟩ := recording_is_transparent hphis
  refine ⟨s₀, s₀', s, s', hnew, hnew', hs, hs', hout, hout', ?_⟩
  exact hsessions {} {} _ {} .unbound 0 1 6 s₀ s₀' s s' states ⟨fun h => nomatch h⟩ hnew hnew' hstart
    hs hs'

end Session

end Lockstep
