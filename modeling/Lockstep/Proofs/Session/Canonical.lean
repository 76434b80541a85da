import Lockstep.Proofs.Lane.Backed
import Lockstep.Proofs.Session.Globals
import Lockstep.Proofs.Session.Rounds

set_option autoImplicit false

/-! # Snapshots of allocations

Between two rounds, the variable of every allocation of every lane is the zero of its type with the
content of the allocation, and so is each lane's copy of every global variable, whichever lane wrote
last (`Session.snapshots_are_canonical`). Within a round copies may fall behind, but then a write has
been counted, and the lanes read the global variables again. -/

namespace Lockstep

namespace Lane

variable {l l' : Lane} {gs : List GlobalVar} {x : Id}

/-! ## Reading global variables -/

/-- What an identifier has after global variables have been assigned one after another. -/
def boundBy (gs : List GlobalVar) (id : Id) (before : Option Variable) : Option Variable :=
  gs.foldl (fun v g => if g.id = id then some g.value else v) before

theorem boundBy_of_not_mem (h : x ∉ gs.map (·.id)) (before : Option Variable) :
    boundBy gs x before = before := by
  induction gs generalizing before with
  | nil => rfl
  | cons g gs ih =>
      rw [List.map_cons, List.mem_cons, not_or] at h
      rw [boundBy, List.foldl_cons, if_neg (Ne.symm h.1)]
      exact ih h.2 before

theorem boundBy_of_mem (hids : (gs.map (·.id)).Nodup) {g : GlobalVar} (hg : g ∈ gs)
    (before : Option Variable) : boundBy gs g.id before = some g.value := by
  induction gs generalizing before with
  | nil => cases hg
  | cons g' gs ih =>
      rw [List.map_cons, List.nodup_cons] at hids
      rw [boundBy, List.foldl_cons]
      rcases List.mem_cons.1 hg with rfl | hg
      · rw [if_pos rfl]
        exact boundBy_of_not_mem hids.1 _
      · exact ih hids.2 hg _

theorem value_bindGlobals (h : l.bindGlobals gs = (l', none)) (x : Id) :
    l'.value? x = boundBy gs x (l.value? x) := by
  induction gs generalizing l with
  | nil =>
      cases h
      rfl
  | cons g gs ih =>
      rw [bindGlobals] at h
      split at h
      · next hplace =>
          rw [ih h, value_assign hplace, Function.update_apply, boundBy, boundBy, List.foldl_cons]
          simp only [eq_comm]
      · cases h

theorem value_skipNops (l : Lane) (p : Program) : (l.skipNops p).value? = l.value? := by
  obtain ⟨_, _, _, h⟩ := skipNops_eq l p
  rw [h]
  rfl

theorem value_scopeGlobals (l : Lane) (live : Array Bool) : (l.scopeGlobals live).value? = l.value? := by
  funext x
  unfold value? inputId outputId scopeGlobals
  rw [Array.size_mapIdx]
  split
  · rw [Array.getElem?_mapIdx]
    cases l.cells[x.index]? with
    | none => rfl
    | some c => cases live[x.index]? <;> rfl
  · rfl

theorem value_of_enter {p : Program} {b : Bindings} {as : Analyses} {live : Array Bool}
    (h : l.enter p b as live = (.ok (), l')) (x : Id) :
    l'.value? x = boundBy b.globals x (l.value? x) := by
  obtain ⟨a, l₁, -, hbind, rfl⟩ := eq_of_enter h
  rw [value_skipNops, value_scopeGlobals]
  exact value_bindGlobals hbind x

/-- A lane that has not entered the program has no results. -/
theorem value_new {p : Program} (hp : p.UniqueIds) (hx : p.IsResult x) (index : Nat) (init : LaneInit) :
    (Lane.new index p init).value? x = none := by
  obtain ⟨hinput, houtput⟩ := hp.ne_reserved (.inl hx)
  unfold value? inputId outputId
  have hsize : (Lane.new index p init).cells.size = p.idCount := Array.size_replicate
  rw [hsize, if_neg hinput, if_neg houtput]
  split
  · next hlt =>
      rw [← hsize] at hlt
      rw [Array.getElem?_eq_getElem hlt]
      simp [Lane.new]
  · rfl

/-- To read global variables again gives those that have a value the content of their allocations. -/
theorem value_refreshGlobals {memory : Memory} (h : l.refreshGlobals memory gs = (.ok (), l')) (x : Id) :
    (x ∉ gs.map (·.id) → l'.value? x = l.value? x) ∧
      (x ∈ gs.map (·.id) → ∀ {v}, l.value? x = some v →
        ∃ a, memory.allocation? x = some a ∧ l'.value? x = some (v.ofBytes a.bytes)) := by
  induction gs generalizing l with
  | nil =>
      cases h
      exact ⟨fun _ => rfl, fun hx => nomatch hx⟩
  | cons g gs ih =>
      rw [refreshGlobals] at h
      rw [List.map_cons, List.mem_cons]
      split at h
      · next hnone =>
          obtain ⟨hrest, hmem⟩ := ih h
          refine ⟨fun hx => hrest fun hmem => hx (.inr hmem), fun hx v hv => ?_⟩
          refine hmem (hx.resolve_left ?_) hv
          rintro rfl
          rw [hnone] at hv
          cases hv
      · next before hbefore =>
          split at h
          · cases h
          · next after hreload =>
              obtain ⟨a, ha, rfl⟩ := Memory.reload_ok hreload
              have hvalue := value_assign (hasPlace_of_value hbefore) (before.ofBytes a.bytes)
              obtain ⟨hrest, hmem⟩ := ih h
              rw [hvalue, Function.update_apply] at hrest hmem
              refine ⟨fun hx => ?_, fun hx v hv => ?_⟩
              · rw [hrest fun hmem => hx (.inr hmem), if_neg fun heq => hx (.inl heq)]
              · by_cases heq : x = g.id
                · subst heq
                  rw [if_pos rfl] at hrest hmem
                  cases hbefore.symm.trans hv
                  -- an identifier may be listed again
                  by_cases hx' : g.id ∈ gs.map (·.id)
                  · obtain ⟨a', ha', hv'⟩ := hmem hx' rfl
                    cases ha.symm.trans ha'
                    exact ⟨a, ha, by rw [hv', Variable.ofBytes_ofBytes]⟩
                  · exact ⟨a, ha, hrest hx'⟩
                · rw [if_neg heq] at hmem
                  exact hmem (hx.resolve_left heq) hv

end Lane

/-! ## Lanes -/

namespace Holdings

variable {p : Program} {d d' : Holdings}

/-- Another lane's write keeps the variables of a lane backed. -/
theorem Backed.of_shared {shared : Memory} (h : d.Backed p) (hshared : shared.pointers = d.shared.pointers) :
    ({ d with shared } : Holdings).Backed p :=
  ⟨h.alloca, h.allocation, h.isResult, h.base,
    fun {g} {_} hg hq => h.shared hg ((congrArg (·.get? g.id) hshared).symm.trans hq), h.global⟩

theorem Spares.pointers_eq (h : d.Spares p d') : d'.shared.pointers = d.shared.pointers := by
  rcases h with ⟨hshared, -⟩ | ⟨-, hpointers, -⟩
  · rw [hshared]
  · exact hpointers

theorem Spares.writes_le (h : d.Spares p d') : d.shared.writes ≤ d'.shared.writes := by
  rcases h with ⟨hshared, -⟩ | ⟨hwrites, -⟩
  · exact Nat.le_of_eq (congrArg Memory.writes hshared).symm
  · exact hwrites ▸ Nat.le_succ _

/-- A step after which no write has been counted leaves global variables alone. -/
theorem Spares.eq_of_writes (h : d.Spares p d') (hwrites : d'.shared.writes = d.shared.writes) :
    d'.shared = d.shared ∧ ∀ {g}, g ∈ p.globals → d'.values g.id = d.values g.id :=
  h.resolve_right fun hright => Nat.succ_ne_self _ (hright.1.symm.trans hwrites)

end Holdings

namespace Lane

variable {p : Program} {l l' : Lane} {s : Setting} {w : World} {state : StepState} {gs : List GlobalVar}

theorem holdings_skipNops (l : Lane) (p : Program) (w : World) :
    (l.skipNops p).holdings w = l.holdings w := by
  rw [holdings, value_skipNops, memory_skipNops]
  rfl

theorem backed_of_step (hp : p.UniqueIds) (hs : s.program = p) (hsize : l.cells.size = p.idCount)
    (h : (l.holdings w).Backed p) (hok : (l.step s w).result = .ok state) :
    ((l.step s w).lane.holdings (l.step s w).world).Backed p ∧
      (l.holdings w).Spares p ((l.step s w).lane.holdings (l.step s w).world) ∧
      (l.step s w).lane.cells.size = p.idCount := by
  by_cases hfin : l.isFinished
  · rw [step, if_pos hfin]
    exact ⟨h, .inl ⟨rfl, fun _ => rfl⟩, hsize⟩
  · obtain ⟨a, i, hnext, hd⟩ := does_of_step hfin hok
    have hi : p.HasInstr i := hs ▸ Program.hasInstr_of_nextInstr hnext
    obtain ⟨hbacked, hspares⟩ := h.of_does hp hi hsize hd
    exact ⟨hbacked, hspares, (size_of_step hfin hok).trans hsize⟩

/-- A lane that has read all global variables again shows the shared memory. -/
theorem canonical_of_refreshGlobals (hglobals : ∀ {g}, g ∈ p.globals → g.id ∈ gs.map (·.id))
    (hresults : ∀ {id}, p.IsResult id → id ∉ gs.map (·.id)) (h : (l.holdings w).Backed p)
    (hok : l.refreshGlobals w.memory gs = (.ok (), l')) :
    (l'.holdings w).Backed p ∧ (l'.holdings w).Canonical p := by
  have hmemory : l'.memory = l.memory := by
    have hmemory := memory_refreshGlobals l w.memory gs
    rwa [hok] at hmemory
  have halloca : ∀ {id name pointee}, p.Allocates id name pointee → l'.value? id =
      (l.memory.allocation? id).map fun a => (Variable.zeroed name pointee).ofBytes a.bytes := by
    intro id name pointee hid
    rw [(value_refreshGlobals hok id).1 (hresults hid.isResult)]
    exact h.alloca hid
  have hglobal : ∀ {g}, g ∈ p.globals → ∃ pointee a, g.ty.pointee? = some pointee ∧
      w.memory.allocation? g.id = some a ∧
      l'.value? g.id = some ((Variable.zeroed g.name pointee).ofBytes a.bytes) := by
    intro g hg
    obtain ⟨pointee, bytes, hty, hvalue⟩ := h.global hg
    obtain ⟨a, ha, hv⟩ := (value_refreshGlobals hok g.id).2 (hglobals hg) hvalue
    exact ⟨pointee, a, hty, ha, by rw [hv, Variable.ofBytes_ofBytes]⟩
  rw [holdings, hmemory]
  refine ⟨⟨halloca, h.allocation, h.isResult, h.base, h.shared, fun hg => ?_⟩, halloca, hglobal⟩
  obtain ⟨pointee, a, hty, -, hv⟩ := hglobal hg
  exact ⟨pointee, a.bytes, hty, hv⟩

end Lane

/-! ## Rounds -/

namespace Session

variable {p : Program} {s t : Session} {host : Host} {states : List StepState} {writes : Nat}

/-- What lanes hold is backed by their memory and the shared one. -/
structure Backed (p : Program) (s : Session) : Prop where
  program : s.program = p
  globals : ∀ {g}, g ∈ p.globals → g.id ∈ s.bindings.globals.map (·.id)
  results : ∀ {id}, p.IsResult id → id ∉ s.bindings.globals.map (·.id)
  size : ∀ {l}, l ∈ s.lanes → l.cells.size = p.idCount
  backed : ∀ {l}, l ∈ s.lanes → (l.holdings s.world).Backed p

/-- The variables of allocations show what memory holds, in all lanes. -/
def Canonical (p : Program) (s : Session) : Prop := ∀ l ∈ s.lanes, (l.holdings s.world).Canonical p

/-- What holds within a round that started with a number of writes: copies of global variables have
    fallen behind only if there have been more writes. -/
structure Within (p : Program) (writes : Nat) (t : Session) : Prop where
  backed : t.Backed p
  counted : writes ≤ t.world.memory.writes
  canonical : t.world.memory.writes = writes → t.Canonical p

/-- The turn of a lane. -/
theorem Within.stepLane {index : Nat} (hp : p.UniqueIds) (h : t.Within p writes)
    (hok : (t.stepLane host index).result = .ok states) :
    (t.stepLane host index).session.Within p writes := by
  cases hl : t.lanes[index]? with
  | none =>
      rwa [stepLane_of_none hl]
  | some l =>
      have hmem := List.mem_of_getElem? hl
      obtain ⟨state, hstep, hsession, -⟩ := stepLane_ok hl hok
      rw [hsession]
      obtain ⟨hbacked, hspares, hsize⟩ := Lane.backed_of_step (s := t.setting host index) hp
        h.backed.program (h.backed.size hmem) (h.backed.backed hmem) hstep
      generalize l.step (t.setting host index) t.world = stepped at hbacked hspares hsize
      have hcases : ∀ {l'}, l' ∈ t.lanes.set index stepped.lane → l' ∈ t.lanes ∨ l' = stepped.lane :=
        fun hl' => List.mem_or_eq_of_mem_set hl'
      refine ⟨⟨h.backed.program, h.backed.globals, h.backed.results, fun hl' => ?_, fun hl' => ?_⟩,
        Nat.le_trans h.counted hspares.writes_le, fun hwrites l' hl' => ?_⟩
      · rcases hcases hl' with hl' | rfl
        · exact h.backed.size hl'
        · exact hsize
      · rcases hcases hl' with hl' | rfl
        · exact (h.backed.backed hl').of_shared hspares.pointers_eq
        · exact hbacked
      · -- no write has been counted since the round started, and so none in this turn
        have hbefore : t.world.memory.writes = writes :=
          Nat.le_antisymm (Nat.le_trans hspares.writes_le (Nat.le_of_eq hwrites)) h.counted
        obtain ⟨hshared, hvalues⟩ := hspares.eq_of_writes (hwrites.trans hbefore.symm)
        have hcanonical := h.canonical hbefore
        replace hshared : stepped.world.memory = t.world.memory := hshared
        rcases hcases hl' with hl' | rfl
        · show (l'.holdings stepped.world).Canonical p
          rw [Lane.holdings, hshared]
          exact hcanonical l' hl'
        · refine ⟨hbacked.alloca, fun {g} hg => ?_⟩
          obtain ⟨pointee, a, hty, ha, hvalue⟩ := (hcanonical l hmem).global hg
          exact ⟨pointee, a, hty, (congrArg (·.allocation? g.id) hshared).trans ha,
            (hvalues hg).trans hvalue⟩

/-- After the turns of lanes, they read the global variables again if there has been a write. -/
theorem Within.refresh (h : t.Within p writes) (hok : (t.refresh writes).result = .ok ()) :
    (t.refresh writes).session.Backed p ∧ (t.refresh writes).session.Canonical p := by
  have hsession := refresh_session t writes
  unfold Session.refresh at hok hsession ⊢
  split
  · next hwrites => exact ⟨h.backed, h.canonical hwrites⟩
  · next hwrites =>
      rw [if_neg hwrites] at hok hsession
      have hby := lanesBy_refreshLanes hok
      have hlanes : ∀ {l'}, l' ∈ (t.refreshLanes 0 t.lanes.length).session.lanes →
          ∃ l ∈ t.lanes, l.refreshGlobals t.world.memory t.bindings.globals = (.ok (), l') := by
        intro l' hl'
        obtain ⟨j, hj⟩ := List.getElem?_of_mem hl'
        obtain ⟨l, hl, hrefresh⟩ := hby.lane j l' hj
        have hlt : j < t.lanes.length := (List.getElem?_eq_some_iff.1 hl).1
        rw [if_pos ⟨Nat.zero_le _, by omega⟩] at hrefresh
        exact ⟨l, List.mem_of_getElem? hl, hrefresh⟩
      have hcanonical : ∀ {l'}, l' ∈ (t.refreshLanes 0 t.lanes.length).session.lanes →
          (l'.holdings t.world).Backed p ∧ (l'.holdings t.world).Canonical p := by
        intro l' hl'
        obtain ⟨l, hl, hrefresh⟩ := hlanes hl'
        exact Lane.canonical_of_refreshGlobals h.backed.globals h.backed.results (h.backed.backed hl)
          hrefresh
      have hsize : ∀ {l'}, l' ∈ (t.refreshLanes 0 t.lanes.length).session.lanes →
          l'.cells.size = p.idCount := by
        intro l' hl'
        obtain ⟨l, hl, hrefresh⟩ := hlanes hl'
        have hframe := Lane.frame_refreshGlobals l t.world.memory t.bindings.globals
        rw [hrefresh] at hframe
        exact (Lane.size_cells_of_frame hframe).trans (h.backed.size hl)
      rw [hsession]
      exact ⟨⟨h.backed.program, h.backed.globals, h.backed.results, hsize, fun hl' => (hcanonical hl').1⟩,
        fun l' hl' => (hcanonical hl').2⟩

/-- A round keeps the variables of allocations canonical. -/
theorem canonical_of_round (hp : p.UniqueIds) (hbacked : s.Backed p) (hcanonical : s.Canonical p)
    (h : (s.round host).result = .ok states) :
    (s.round host).session.Backed p ∧ (s.round host).session.Canonical p := by
  obtain ⟨hstepped, hrefreshed, hsession⟩ := round_ok h
  rw [hsession]
  have hwithin : s.Within p s.world.memory.writes := ⟨hbacked, Nat.le_refl _, fun _ => hcanonical⟩
  have hturns := stepLanes_induction hwithin (fun _ _ _ ht hok => ht.stepLane hp hok) hstepped
  obtain ⟨hbacked, hcanonical⟩ := hturns.refresh hrefreshed
  generalize ((s.stepLanes host 0 s.mask).session.refresh s.world.memory.writes).session = t
    at hbacked hcanonical
  -- to move past markers changes no values and no memory
  have hlanes : ∀ {l'}, l' ∈ (t.skipNops s.mask).lanes → ∃ l ∈ t.lanes,
      l'.cells.size = l.cells.size ∧ l'.holdings t.world = l.holdings t.world := by
    intro l' hl'
    obtain ⟨j, hj⟩ := List.getElem?_of_mem hl'
    obtain ⟨l, hl, hskip⟩ := (lanesBy_skipNops s.mask).lane j l' hj
    refine ⟨l, List.mem_of_getElem? hl, ?_⟩
    rw [hskip]
    split
    · exact ⟨congrArg Array.size (l.cells_skipNops t.program), l.holdings_skipNops t.program t.world⟩
    · exact ⟨rfl, rfl⟩
  refine ⟨⟨hbacked.program, hbacked.globals, hbacked.results, fun hl' => ?_, fun hl' => ?_⟩,
    fun l' hl' => ?_⟩
  · obtain ⟨l, hl, hsize, -⟩ := hlanes hl'
    exact hsize.trans (hbacked.size hl)
  · obtain ⟨l, hl, -, hheld⟩ := hlanes hl'
    exact hheld ▸ hbacked.backed hl
  · obtain ⟨l, hl, -, hheld⟩ := hlanes hl'
    exact hheld ▸ hcanonical l hl

/-! ## Starting -/

section

variable {b : Bindings} {w : World} {inits : List LaneInit} {active : Nat} {config : Config}

/-- The global variables of a session that has been set up. -/
structure Declares (p : Program) (s : Session) : Prop where
  globals : ∀ {g}, g ∈ p.globals → ∃ v, World.Declares g v s.world.memory ∧
    ∀ before, Lane.boundBy s.bindings.globals g.id before = some v
  results : ∀ {id}, p.IsResult id → id ∉ s.bindings.globals.map (·.id)

theorem declares_of_new (hp : p.UniqueIds) (hb : ∀ g ∈ b.globals, ¬ p.IsResult g.id)
    (hnew : Session.new p b w inits active config = .ok s) : s.Declares p := by
  obtain ⟨-, analyses, bindings, live, world, -, hglobals, rfl⟩ := new_ok hnew
  obtain ⟨⟨news, hbindings, hids, hvalues⟩, -⟩ := declared_of_allocateGlobals hp.nodup_globals hglobals
  refine ⟨fun {g} hg => ?_, fun {id} hid hmem => ?_⟩
  · have hmem : g.id ∈ news.map (·.id) := hids ▸ List.mem_map_of_mem hg
    obtain ⟨n, hn, heq⟩ := List.mem_map.1 hmem
    obtain ⟨d, hd, hid, hdeclares⟩ := hvalues n hn
    obtain rfl := List.inj_on_of_nodup_map hp.nodup_globals hd hg (hid.trans heq)
    refine ⟨n.value, hdeclares, fun before => ?_⟩
    show Lane.boundBy bindings.globals d.id before = some n.value
    rw [hbindings, ← heq, Lane.boundBy, List.foldl_append]
    exact Lane.boundBy_of_mem (hids ▸ hp.nodup_globals) hn _
  · replace hmem : id ∈ bindings.globals.map (·.id) := hmem
    rw [hbindings, List.map_append, List.mem_append, hids] at hmem
    rcases hmem with hmem | hmem
    · obtain ⟨g, hg, rfl⟩ := List.mem_map.1 hmem
      exact hb g hg hid
    · obtain ⟨g, hg, rfl⟩ := List.mem_map.1 hmem
      exact hp.apart hid ⟨g, hg, rfl⟩

/-- A lane that has entered the program has the variables of global declarations, and nothing else. -/
theorem canonical_of_enter {index : Nat} {init : LaneInit} {l : Lane} (hp : p.UniqueIds)
    (h : s.Declares p)
    (henter : (Lane.new index p init).enter p s.bindings s.analyses s.liveGlobals = (.ok (), l)) :
    (l.holdings s.world).Backed p ∧ (l.holdings s.world).Canonical p ∧ l.cells.size = p.idCount := by
  obtain ⟨hsize, hmemory⟩ := Lane.memory_of_enter henter
  replace hmemory : l.memory = {} := hmemory
  have hnone : ∀ id, ¬ ({} : Memory).hasAllocation id := fun _ => Bool.false_ne_true
  have halloca : ∀ {id name pointee}, p.Allocates id name pointee → l.value? id =
      (({} : Memory).allocation? id).map fun a => (Variable.zeroed name pointee).ofBytes a.bytes := by
    intro id name pointee hid
    rw [Lane.value_of_enter henter, Lane.boundBy_of_not_mem (h.results hid.isResult),
      Lane.value_new hp hid.isResult]
    rfl
  have hglobal : ∀ {g}, g ∈ p.globals → ∃ pointee a, g.ty.pointee? = some pointee ∧
      s.world.memory.allocation? g.id = some a ∧
      s.world.memory.pointer? g.id = some ⟨g.id, 0, pointee.byteSize, pointee⟩ ∧
      l.value? g.id = some ((Variable.zeroed g.name pointee).ofBytes a.bytes) := by
    intro g hg
    obtain ⟨v, ⟨pointee, a, hty, ha, hq, rfl⟩, hbound⟩ := h.globals hg
    exact ⟨pointee, a, hty, ha, hq, (Lane.value_of_enter henter g.id).trans (hbound _)⟩
  rw [Lane.holdings, hmemory]
  refine ⟨⟨halloca, fun hid => absurd hid (hnone _),
    fun hq => (Option.some_ne_none _ (hq.symm.trans (Table.get?_empty _))).elim,
    fun _ hid => absurd hid (hnone _), fun {g q} hg hq => ?_, fun hg => ?_⟩, ⟨halloca, fun hg => ?_⟩,
    hsize.trans Array.size_replicate⟩
  · obtain ⟨pointee, a, -, -, hq', -⟩ := hglobal hg
    cases hq'.symm.trans hq
    rfl
  · obtain ⟨pointee, a, hty, -, -, hvalue⟩ := hglobal hg
    exact ⟨pointee, a.bytes, hty, hvalue⟩
  · obtain ⟨pointee, a, hty, ha, -, hvalue⟩ := hglobal hg
    exact ⟨pointee, a, hty, ha, hvalue⟩

/-- The variables of global declarations show their allocations when a session has been started. -/
theorem canonical_of_start (hp : p.UniqueIds) (hb : ∀ g ∈ b.globals, ¬ p.IsResult g.id)
    (hnew : Session.new p b w inits active config = .ok s) (h : s.start.result = .ok states) :
    s.start.session.Backed p ∧ s.start.session.Canonical p := by
  have hdeclares := declares_of_new hp hb hnew
  have hfresh := fresh_of_new hnew
  have hlanes : ∀ {l}, l ∈ s.start.session.lanes → (l.holdings s.world).Backed p ∧
      (l.holdings s.world).Canonical p ∧ l.cells.size = p.idCount := by
    intro l hl
    obtain ⟨index, init, henter⟩ := hfresh.enter_of_start h hl
    exact canonical_of_enter hp hdeclares henter
  have hglobals : ∀ {g}, g ∈ p.globals → g.id ∈ s.bindings.globals.map (·.id) := by
    intro g hg
    obtain ⟨v, -, hbound⟩ := hdeclares.globals hg
    by_contra hmem
    cases (Lane.boundBy_of_not_mem hmem none).symm.trans (hbound none)
  rw [(start_ok h).1]
  exact ⟨⟨hfresh.program, hglobals, hdeclares.results, fun hl => (hlanes hl).2.2,
    fun hl => (hlanes hl).1⟩, fun l hl => (hlanes hl).2.1⟩

/-- Between two rounds, whatever the hosts answered, the variables of allocations are canonical. -/
theorem Reached.canonical {s₀ : Session} (hp : p.UniqueIds) (hb : ∀ g ∈ b.globals, ¬ p.IsResult g.id)
    (hnew : Session.new p b w inits active config = .ok s₀) (h : Reached s₀ s) :
    s.Backed p ∧ s.Canonical p := by
  induction h with
  | started h => exact canonical_of_start hp hb hnew h
  | round _ h ih => exact canonical_of_round hp ih.1 ih.2 h

/-- After calls that have succeeded, in every lane, the variable of each executed allocation is the zero
    of its type filled with the bytes of the allocation, and the variable of each global declaration is
    the zero of its type filled with the bytes in shared memory, whatever the hosts answered. -/
theorem snapshots_are_canonical {s₀ : Session} (hp : p.UniqueIds)
    (hb : ∀ g ∈ b.globals, ¬ p.IsResult g.id)
    (hnew : Session.new p b w inits active config = .ok s₀) (h : s₀.Continued s) : s.Canonical p := by
  have hstarted : ¬ s₀.isStarted := by
    obtain ⟨-, _, _, _, _, -, -, rfl⟩ := new_ok hnew
    exact Bool.false_ne_true
  exact ((h.reached hstarted).canonical hp hb hnew).2

end

/-- A program that stores to an element of its own array, and counts in an element of a global one. -/
def storeAndCount : Program :=
  { stage := .compute
    globals := [{ id := ⟨0⟩, name := "counts", ty := .pointer (.array (.int 32) 2) .groupShared }]
    functions := #[{
      name := "storeAndCount"
      blocks := #[{}]
      instrs := #[
        { op := .alloca, ty := .pointer (.array (.int 32) 2) .stack, result := some ⟨1⟩ },
        { op := .getElementPtr, ty := .pointer (.int 32) .stack, result := some ⟨2⟩,
          args := [.ref ⟨1⟩, .const (.int 32 0), .const (.int 32 1)] },
        { op := .store, args := [.ref ⟨2⟩, .const (.int 32 5)] },
        { op := .getElementPtr, ty := .pointer (.int 32) .groupShared, result := some ⟨3⟩,
          args := [.ref ⟨0⟩, .const (.int 32 0), .const (.int 32 1)] },
        { op := .atomicAdd, ty := .int 32, result := some ⟨4⟩,
          args := [.ref ⟨3⟩, .const (.int 32 1)] },
        { op := .ret }] }]
    idCount := 5 }

/-- After five rounds of this program, both of its lanes show both counts in the global array. -/
theorem storeAndCount_is_canonical :
    ∃ s₀ s, Session.new storeAndCount {} {} [{}, {}] 0 { stepsPerContinue := 5 } = .ok s₀ ∧ s₀.Continued s ∧
      s.Canonical storeAndCount ∧ s.lanes.length = 2 ∧
      ∀ l ∈ s.lanes, (l.value? ⟨1⟩).any (·.members.map (·.get 0) == [0, 5]) ∧
        (l.value? ⟨0⟩).any (·.members.map (·.get 0) == [0, 2]) := by
  have h : ∃ s₀, Session.new storeAndCount {} {} [{}, {}] 0 { stepsPerContinue := 5 } = .ok s₀ ∧
      ∃ begun, s₀.resume .unbound 1 = some begun ∧ (∃ states, begun.result = .ok states ∧ True) ∧
      ∃ done, begun.session.resume .unbound 9 = some done ∧ (∃ states, done.result = .ok states ∧ True) ∧
      done.session.lanes.length = 2 ∧
      ∀ l ∈ done.session.lanes, (l.value? ⟨1⟩).any (·.members.map (·.get 0) == [0, 5]) ∧
        (l.value? ⟨0⟩).any (·.members.map (·.get 0) == [0, 2]) := by
    decide +kernel
  obtain ⟨s₀, hnew, begun, hbegun, ⟨_, hok, -⟩, done, hdone, ⟨_, hok', -⟩, hlanes⟩ := h
  have hcontinued : s₀.Continued done.session := .next (.first hbegun hok) hdone hok'
  exact ⟨s₀, done.session, hnew, hcontinued,
    snapshots_are_canonical (by decide) (fun _ hg => absurd hg List.not_mem_nil) hnew hcontinued, hlanes⟩

end Session

end Lockstep
