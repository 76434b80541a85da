import Lockstep.Host.Unbound
import Lockstep.Proofs.Lane.Derived
import Lockstep.Proofs.Lane.Trail

set_option autoImplicit false

/-! # Derived pointers of a lane that runs alone

When a lane runs alone, the variable of a derived pointer shows the bytes in its range as they were after
the last step that derived the pointer or wrote through it (`Session.derived_pointers_show`). It falls
behind when the range is written through another pointer (`Session.twoPointersToElement_differ`). -/

namespace Lockstep

namespace Move

/-- The step derives the pointer of an identifier, or writes through it. -/
def Renews (t : Move) (id : Id) : Prop := ∃ i, t.Executes i ∧ t.lane.Renews t.world.memory i id

/-- The step writes to the range of a pointer, or makes the allocation of the pointer anew. -/
def Touches (t : Move) (q : Pointer) : Prop := ∃ i, t.Executes i ∧ t.lane.Touches t.world.memory i q

/-- What the lane holds after the step. -/
def held (t : Move) : Holdings := t.stepped.lane.holdings t.left

end Move

/-- The variable of an identifier shows the bytes that its pointer addressed after a step that derived the
    pointer or wrote through it. None of the later steps has done that, and unless one of them has touched
    the bytes, they are still there. -/
structure Holdings.ShowsSince (d : Holdings) (id : Id) (name : String) (u : Move) (after : List Move)
    (q : Pointer) (bytes : Bytes) : Prop where
  renews : u.Renews id
  last : ∀ t ∈ after, ¬ t.Renews id
  pointer : d.own.pointer? id = some q
  value : d.values id = some ((Variable.zeroed name q.pointee).ofBytes bytes)
  read : u.held.read q = .ok bytes
  current : (∀ t ∈ after, ¬ t.Touches q) → d.read q = .ok bytes

/-- The variable of an identifier shows the bytes of the last step in a list that renewed it. -/
def Holdings.Shows (d : Holdings) (id : Id) (name : String) (past : List Move) : Prop :=
  ∃ before u after q bytes, past = before ++ u :: after ∧ d.ShowsSince id name u after q bytes

namespace Holdings.Shows

variable {d d' : Holdings} {id : Id} {name : String} {past : List Move} {t : Move}

/-- A step that does not renew the variable, and leaves it and its pointer alone. -/
theorem concat (h : d.Shows id name past) (hno : ¬ t.Renews id) (hvalue : d'.values id = d.values id)
    (hpointer : d'.own.pointer? id = d.own.pointer? id)
    (hread : ∀ q, ¬ t.Touches q → d'.read q = d.read q) : d'.Shows id name (past ++ [t]) := by
  obtain ⟨before, u, after, q, bytes, rfl, h⟩ := h
  refine ⟨before, u, after ++ [t], q, bytes, by simp, h.renews, fun x hx => ?_, hpointer.trans h.pointer,
    hvalue.trans h.value, h.read, fun hapart => ?_⟩
  · rcases List.mem_append.1 hx with hx | hx
    · exact h.last x hx
    · cases List.mem_singleton.1 hx
      exact hno
  · rw [hread q (hapart t (by simp))]
    exact h.current fun x hx => hapart x (by simp [hx])

/-- A step that renews the variable. -/
theorem renewed (hrenews : t.Renews id) {q : Pointer} {bytes : Bytes}
    (hpointer : t.held.own.pointer? id = some q)
    (hvalue : t.held.values id = some ((Variable.zeroed name q.pointee).ofBytes bytes))
    (hread : t.held.read q = .ok bytes) : t.held.Shows id name (past ++ [t]) :=
  ⟨past, t, [], q, bytes, rfl, hrenews, fun _ hx => absurd hx List.not_mem_nil, hpointer, hvalue, hread,
    fun _ => hread⟩

/-- Only the variable, the pointer and the memory count. -/
theorem congr (h : d.Shows id name past) (hvalue : d'.values id = d.values id) (hown : d'.own = d.own)
    (hshared : d'.shared = d.shared) : d'.Shows id name past := by
  obtain ⟨before, u, after, q, bytes, hpast, h⟩ := h
  exact ⟨before, u, after, q, bytes, hpast, h.renews, h.last, hown ▸ h.pointer, hvalue.trans h.value, h.read,
    fun hapart => (read_of_memory_eq ⟨hown, hshared⟩ q).trans (h.current hapart)⟩

end Holdings.Shows

/-! ## The step of a lane -/

namespace Move

variable {p : Program} {t : Move} {i : Instr} {id : Id} {past : List Move}

/-- What a step does to the variable of a derived pointer, if the allocations of the lane's own memory are
    made by instructions and those of the shared memory are not known by results of instructions. -/
theorem shows (hp : p.UniqueIds) (hprogram : t.setting.program = p) (hrun : ¬ t.lane.isFinished)
    (hok : t.Succeeds) (hsize : t.lane.cells.size = p.idCount)
    (hown : ∀ {base}, t.lane.memory.hasAllocation base → ∃ name pointee, p.Allocates base name pointee)
    (hshared : ∀ {base}, t.world.memory.hasAllocation base → ¬ p.IsResult base)
    (hi : p.HasInstr i) (hop : i.op = .getElementPtr) (hid : i.result = some id)
    (h : (t.lane.value? id).isSome → (t.lane.holdings t.world).Shows id (i.resultName id) past)
    (hvalue : (t.stepped.lane.value? id).isSome) : t.held.Shows id (i.resultName id) (past ++ [t]) := by
  obtain ⟨state, hok⟩ := hok
  obtain ⟨a, j, hnext, hdoes⟩ := Lane.does_of_step hrun hok
  have hexecutes : t.Executes j := ⟨a, hnext⟩
  have hj : p.HasInstr j := hprogram ▸ Program.hasInstr_of_nextInstr hnext
  replace hdoes : t.lane.Does t.setting j t.world t.held := hdoes
  have hderives : j.result = some id → j = i := fun hjid => hp.eq_of_result hj hi hjid hid
  -- the pointer leads to an allocation, which has another identifier
  have hbase : ∀ {src q}, t.lane.WritesThrough t.world.memory j src q → id ≠ q.base := by
    rintro src q hwrites rfl
    rcases hdoes.hasAllocation hwrites with hbase | hbase
    · obtain ⟨name, pointee, halloca⟩ := hown hbase
      cases halloca with
      | alloca hk hkop hkid _ _ =>
          cases hp.eq_of_result hk hi hkid hid
          cases hop.symm.trans hkop
    · exact hshared hbase (hi.isResult hid)
  by_cases hrenews : t.lane.Renews t.world.memory j id
  · have hmove : t.Renews id := ⟨j, hexecutes, hrenews⟩
    by_cases hresult : j.result = some id
    · obtain rfl := hderives hresult
      obtain ⟨q, bytes, hpointer, hread, hvalue⟩ := hdoes.derived hop hid
      exact .renewed hmove hpointer hvalue hread
    · obtain ⟨q, hwrites⟩ := hrenews.resolve_left fun h => hresult h.2
      obtain ⟨v, bytes, hv, hv', hread⟩ := hdoes.written hwrites (hbase hwrites) hresult
      obtain ⟨_, _, _, q', bytes', -, hshows⟩ := h (Option.isSome_of_eq_some hv)
      -- the write goes through the pointer that the lane has
      have hq : t.lane.memory.pointer? id = some q' := hshows.pointer
      have hresolve : t.lane.resolve t.world.memory id = .ok q' := by
        unfold Lane.resolve
        rw [hq]
        rfl
      cases hwrites.2.2.symm.trans hresolve
      cases hv.symm.trans (show t.lane.value? id = _ from hshows.value)
      rw [Variable.ofBytes_ofBytes] at hv'
      exact .renewed hmove ((hdoes.pointer_eq hresult).trans hq) hv' hread
  · have hno : ¬ t.Renews id := by
      rintro ⟨j', hj', hrenews'⟩
      exact hrenews (hexecutes.unique hj' ▸ hrenews')
    have houtput : id ≠ t.lane.outputId := by
      rw [Lane.outputId, hsize]
      exact (hp.ne_reserved (.inl (hi.isResult hid))).2
    obtain ⟨hsame, hpointer⟩ := hdoes.eq_of_not_renews hrenews houtput
      (fun hresult => hderives hresult ▸ hop) hbase
    refine (h ?_).concat hno hsame hpointer fun q hapart => ?_
    · rwa [← hsame]
    · exact hdoes.read_eq fun htouches => hapart ⟨j, hexecutes, htouches⟩

end Move

/-! ## Runs of one lane -/

namespace Session

variable {p : Program} {b : Bindings} {w : World} {init : LaneInit} {active : Nat} {config : Config}
  {s₀ s : Session} {host : Host} {states : List StepState} {l : Lane} {past : List Move}

/-- The sessions between two rounds of a session with one lane, with the steps that the lane has taken. -/
inductive Solo (s₀ : Session) : Session → List Move → Prop
  | started {states : List StepState} (h : s₀.start.result = .ok states) : Solo s₀ s₀.start.session []
  | round {s : Session} {past : List Move} {host : Host} {states : List StepState} {l : Lane}
      (hs : Solo s₀ s past) (hl : s.lanes = [l]) (h : (s.round host).result = .ok states) :
      Solo s₀ (s.round host).session (past ++ if l.isFinished then [] else [s.move host 0 l])

theorem Solo.reached (h : Solo s₀ s past) : Reached s₀ s := by
  induction h with
  | started h => exact .started h
  | round _ _ h ih => exact .round ih h

/-- A round leaves one lane. -/
theorem lanes_of_round_alone (hl : s.lanes = [l]) (h : (s.round host).result = .ok states) :
    ∃ l', (s.round host).session.lanes = [l'] := by
  have hlength := (lanes_of_round h).length
  rw [hl] at hlength
  exact List.length_eq_one_iff.1 hlength

theorem lanes_of_start_alone (hnew : Session.new p b w [init] active config = .ok s₀)
    (h : s₀.start.result = .ok states) : ∃ l, s₀.start.session.lanes = [l] := by
  obtain ⟨-, _, _, _, _, -, -, rfl⟩ := new_ok hnew
  exact List.length_eq_one_iff.1 (lanesBy_start h).length

/-- Every run of a session with one lane consists of the steps of that lane. -/
theorem Reached.solo (hnew : Session.new p b w [init] active config = .ok s₀) (h : Reached s₀ s) :
    ∃ l past, s.lanes = [l] ∧ Solo s₀ s past := by
  induction h with
  | started h =>
      obtain ⟨l, hl⟩ := lanes_of_start_alone hnew h
      exact ⟨l, [], hl, .started h⟩
  | round _ h ih =>
      obtain ⟨l, past, hl, hsolo⟩ := ih
      obtain ⟨l', hl'⟩ := lanes_of_round_alone hl h
      exact ⟨l', _, hl', hsolo.round hl h⟩

/-- A round of a lane that runs alone is a step, which is reported, and after which the lane may read the
    global variables again and moves past markers. -/
theorem round_alone (hl : s.lanes = [l]) (hfin : ¬ l.isFinished) (h : (s.round host).result = .ok states) :
    ∃ l₁ state, (s.move host 0 l).stepped.result = .ok state ∧
      (s.active = 0 → states = [{ state with index := s.steps }]) ∧
      Lane.Refreshing s.bindings.globals (s.move host 0 l).stepped.lane l₁ ∧
      (s.round host).session.lanes = [l₁.skipNops s.program] ∧
      (s.round host).session.world = (s.move host 0 l).left := by
  obtain ⟨l', hl'⟩ := lanes_of_round_alone hl h
  obtain ⟨hstepped, hrefreshed, hsession⟩ := round_ok h
  rw [hsession] at hl' ⊢
  have hmask : s.mask = [true] := by
    rw [mask_of_alone hl]
    simpa using hfin
  rw [hmask] at hstepped hrefreshed hl' ⊢
  obtain ⟨first, others, hfirst, hothers, hturns, hstates⟩ := stepLanes_ok hstepped
  obtain ⟨state, hstate, hturn, hreported⟩ := stepLane_ok (hl ▸ rfl : s.lanes[0]? = some l) hfirst
  cases hothers
  rw [stepLanes] at hturns
  have hturned : (s.stepLanes host 0 [true]).session.lanes = [(s.move host 0 l).stepped.lane] ∧
      (s.stepLanes host 0 [true]).session.world = (s.move host 0 l).left ∧
      (s.stepLanes host 0 [true]).session.bindings = s.bindings ∧
      (s.stepLanes host 0 [true]).session.program = s.program := by
    rw [hturns, hturn]
    refine ⟨?_, rfl, rfl, rfl⟩
    show s.lanes.set 0 (l.step (s.setting host 0) s.world).lane = _
    rw [hl]
    rfl
  generalize (s.stepLanes host 0 [true]).session = t at hturned hrefreshed hl' ⊢
  obtain ⟨hlanes, hworld, hbindings, hprogram⟩ := hturned
  -- the lane after its turn, after the refresh, and after the markers
  have hlast := congrArg (·[0]?) hl'
  obtain ⟨l₁, hl₁, hskip⟩ := (lanesBy_skipNops [true]).lane 0 l' hlast
  obtain ⟨l₀, hl₀, hrefresh⟩ := (lanesBy_refresh hrefreshed).lane 0 l₁ hl₁
  rw [hlanes] at hl₀
  cases hl₀
  rw [(lanesBy_refresh hrefreshed).program, hprogram] at hskip
  refine ⟨l₁, state, hstate, fun hactive => ?_, hbindings ▸ hrefresh,
    hl'.trans (congrArg (fun l => [l]) hskip), ?_⟩
  · rw [hstates, hreported, if_pos hactive.symm, List.append_nil]
  · rw [skipNops, refresh_session]
    exact hworld

/-- A round in which the only lane has finished changes nothing that lanes hold. -/
theorem round_alone_of_isFinished (hl : s.lanes = [l]) (hfin : l.isFinished)
    (h : (s.round host).result = .ok states) :
    (s.round host).session.lanes = [l] ∧ (s.round host).session.world = s.world := by
  obtain ⟨-, -, hsession⟩ := round_ok h
  have hmask : s.mask = [false] := by
    rw [mask_of_alone hl, hfin]
    rfl
  have hrefresh : s.refresh s.world.memory.writes = { session := s, result := .ok () } := if_pos rfl
  rw [hsession, hmask, stepLanes, stepLanes, hrefresh, skipNops, hl]
  exact ⟨rfl, rfl⟩

/-- The identifiers that results have are those of no allocation in the shared memory. -/
theorem Solo.shared_apart (hp : p.UniqueIds) (hw : ∀ {id}, w.memory.hasAllocation id → ¬ p.IsResult id)
    (hnew : Session.new p b w [init] active config = .ok s₀) (h : Solo s₀ s past) {base : Id}
    (hbase : s.world.memory.hasAllocation base) : ¬ p.IsResult base := by
  rcases (pointed_of_reached hnew h.reached).allocation hbase with hglobal | hgiven
  · exact fun hresult => hp.apart hresult hglobal
  · exact hw hgiven

/-- A lane that runs alone keeps what the variable of a derived pointer shows. -/
theorem Solo.shows {i : Instr} {id : Id} (hp : p.UniqueIds) (hb : ∀ g ∈ b.globals, ¬ p.IsResult g.id)
    (hw : ∀ {id}, w.memory.hasAllocation id → ¬ p.IsResult id)
    (hnew : Session.new p b w [init] active config = .ok s₀) (hi : p.HasInstr i)
    (hop : i.op = .getElementPtr) (hid : i.result = some id) (h : Solo s₀ s past) (hl : s.lanes = [l])
    (hvalue : (l.value? id).isSome) : (l.holdings s.world).Shows id (i.resultName id) past := by
  have hresults := (declares_of_new hp hb hnew).results (hi.isResult hid)
  induction h generalizing l with
  | started h =>
      -- the lane has not assigned anything yet
      obtain ⟨index, init, henter⟩ := (fresh_of_new hnew).enter_of_start h (l := l) (by simp [hl])
      rw [Lane.value_of_enter henter, Lane.boundBy_of_not_mem hresults,
        Lane.value_new hp (hi.isResult hid)] at hvalue
      cases hvalue
  | @round s past host states l₀ hs hl₀ h ih =>
      by_cases hfin : l₀.isFinished
      · obtain ⟨hlanes, hworld⟩ := round_alone_of_isFinished hl₀ hfin h
        cases hlanes.symm.trans hl
        rw [if_pos hfin, List.append_nil, hworld]
        exact ih hl₀ hvalue
      · obtain ⟨l₁, state, hok, -, hrefresh, hlanes, hworld⟩ := round_alone hl₀ hfin h
        cases hlanes.symm.trans hl
        have hmem : l₀ ∈ s.lanes := by simp [hl₀]
        have hbacked := (hs.reached.canonical hp hb hnew).1
        have hprogram : s.program = p := hbacked.program
        have hglobal : id ∉ s.bindings.globals.map (·.id) := hs.reached.bindings_eq ▸ hresults
        have hsame := hrefresh.value_eq hglobal
        rw [Lane.value_skipNops, hsame] at hvalue
        have hshows := Move.shows (t := s.move host 0 l₀) hp hprogram hfin ⟨state, hok⟩ (hbacked.size hmem)
          (fun hbase => (hbacked.backed hmem).allocation hbase)
          (fun hbase => hs.shared_apart hp hw hnew hbase) hi hop hid (ih hl₀) hvalue
        rw [if_neg hfin]
        refine hshows.congr ?_ ?_ (congrArg World.memory hworld)
        · exact (congrFun (l₁.value_skipNops s.program) id).trans hsame
        · exact (l₁.memory_skipNops s.program).trans hrefresh.memory_eq

/-- In a session with one lane, after every step, the variable of a derived pointer is the zero of its
    pointee type filled with the bytes that the pointer addressed after the last step that derived the
    pointer or stored or updated through it. These are the bytes that it addresses now, unless a later step
    has written to its range through another pointer or made its allocation anew. -/
theorem derived_pointers_show (hp : p.UniqueIds) (hb : ∀ g ∈ b.globals, ¬ p.IsResult g.id)
    (hw : ∀ id, w.memory.hasAllocation id → ¬ p.IsResult id)
    (hnew : Session.new p b w [init] active config = .ok s₀) (h : Reached s₀ s) :
    ∃ l past, s.lanes = [l] ∧ Solo s₀ s past ∧ ∀ {i : Instr} {id : Id}, p.HasInstr i →
      i.op = .getElementPtr → i.result = some id → (l.value? id).isSome →
      ∃ before u after q bytes, past = before ++ u :: after ∧
        (l.holdings s.world).ShowsSince id (i.resultName id) u after q bytes := by
  obtain ⟨l, past, hl, hsolo⟩ := h.solo hnew
  exact ⟨l, past, hl, hsolo, fun hi hop hid hvalue =>
    hsolo.shows hp hb (hw _) hnew hi hop hid hl hvalue⟩

/-- A program that derives two pointers to one element of its array, stores through the second, and loads
    through the first. -/
def twoPointersToElement : Program :=
  { stage := .compute
    functions := #[{
      name := "twoPointersToElement"
      blocks := #[{}]
      instrs := #[
        { op := .alloca, ty := .pointer (.array (.int 32) 2) .stack, result := some ⟨0⟩ },
        { op := .getElementPtr, ty := .pointer (.int 32) .stack, result := some ⟨1⟩,
          args := [.ref ⟨0⟩, .const (.int 32 0), .const (.int 32 1)] },
        { op := .getElementPtr, ty := .pointer (.int 32) .stack, result := some ⟨2⟩,
          args := [.ref ⟨0⟩, .const (.int 32 0), .const (.int 32 1)] },
        { op := .store, args := [.ref ⟨2⟩, .const (.int 32 5)] },
        { op := .load, ty := .int 32, result := some ⟨3⟩, args := [.ref ⟨1⟩] },
        { op := .ret }] }]
    idCount := 4 }

/-- After the store, the variable of each of the two pointers shows the bytes after the last step that
    derived the pointer or wrote through it. -/
theorem twoPointersToElement_show :
    ∃ s₀ s l past, Session.new twoPointersToElement {} {} [{}] 0 {} = .ok s₀ ∧ Reached s₀ s ∧ s.lanes = [l] ∧
      l.instr = 4 ∧ Solo s₀ s past ∧
      ∀ i ∈ twoPointersToElement.functions[0].instrs, ∀ id ∈ i.result, i.op = .getElementPtr →
        ∃ before u after q bytes, past = before ++ u :: after ∧
          (l.holdings s.world).ShowsSince id (i.resultName id) u after q bytes := by
  have h : ∃ s₀, Session.new twoPointersToElement {} {} [{}] 0 {} = .ok s₀ ∧
      ∃ states, s₀.start.result = .ok states ∧ ∃ s, s₀.start.session.advance .unbound 4 = .ok s ∧
      ∃ l, s.lanes[0]? = some l ∧ l.instr = 4 ∧ (l.value? ⟨1⟩).isSome ∧ (l.value? ⟨2⟩).isSome := by
    decide +kernel
  obtain ⟨s₀, hnew, states, hstart, s, hs, l, hl, hinstr, hvalues⟩ := h
  have hreached := (Reached.started hstart).advance hs
  have hnone : ∀ id, ¬ ({} : World).memory.hasAllocation id := fun _ => Bool.false_ne_true
  obtain ⟨l', past, hl', hsolo, hshows⟩ := derived_pointers_show (by decide)
    (fun _ hg => absurd hg List.not_mem_nil) (fun id hid => absurd hid (hnone id)) hnew hreached
  rw [hl'] at hl
  cases hl
  refine ⟨s₀, s, l, past, hnew, hreached, hl', hinstr, hsolo, fun i hi id hid hop => ?_⟩
  have hids : ∀ i ∈ twoPointersToElement.functions[0].instrs, ∀ id ∈ i.result, i.op = .getElementPtr →
      id = ⟨1⟩ ∨ id = ⟨2⟩ := by decide
  have hassigned : (l.value? id).isSome := by
    rcases hids i hi id hid hop with rfl | rfl
    · exact hvalues.1
    · exact hvalues.2
  exact hshows ⟨_, Array.mem_singleton.2 rfl, hi⟩ hop hid hassigned

/-- The first pointer is still in scope then, and its variable does not show the bytes that it addresses. -/
theorem twoPointersToElement_differ :
    ∃ s₀ s l i q bytes v, Session.new twoPointersToElement {} {} [{}] 0 {} = .ok s₀ ∧ Reached s₀ s ∧ s.lanes = [l] ∧
      twoPointersToElement.HasInstr i ∧ i.op = .getElementPtr ∧ i.result = some ⟨1⟩ ∧
      l.isLive ⟨1⟩ ∧ l.memory.pointer? ⟨1⟩ = some q ∧ (l.holdings s.world).read q = .ok bytes ∧
      l.value? ⟨1⟩ = some v ∧ v ≠ (Variable.zeroed (i.resultName ⟨1⟩) q.pointee).ofBytes bytes := by
  have h : ∃ s₀, Session.new twoPointersToElement {} {} [{}] 0 {} = .ok s₀ ∧
      ∃ states, s₀.start.result = .ok states ∧ ∃ s, s₀.start.session.advance .unbound 4 = .ok s ∧
      s.lanes.length = 1 ∧ ∃ l, s.lanes[0]? = some l ∧ l.isLive ⟨1⟩ ∧
      ∃ i, twoPointersToElement.functions[0].instrs[1]? = some i ∧
      ∃ q, l.memory.pointer? ⟨1⟩ = some q ∧ ∃ bytes, (l.holdings s.world).read q = .ok bytes ∧
      ∃ v, l.value? ⟨1⟩ = some v ∧
        v.get 0 ≠ ((Variable.zeroed (i.resultName ⟨1⟩) q.pointee).ofBytes bytes).get 0 := by
    decide +kernel
  obtain ⟨s₀, hnew, states, hstart, s, hs, hlength, l, hl, hlive, i, hi, q, hq, bytes, hread, v, hv,
    hdiffer⟩ := h
  obtain ⟨l', hlanes⟩ := List.length_eq_one_iff.1 hlength
  rw [hlanes] at hl
  cases hl
  have hmem := Array.mem_of_getElem? hi
  cases hi
  exact ⟨s₀, s, l, _, q, bytes, v, hnew, (Reached.started hstart).advance hs, hlanes,
    ⟨_, Array.mem_singleton.2 rfl, hmem⟩, rfl, rfl, hlive, hq, hread, hv, fun heq => hdiffer (heq ▸ rfl)⟩

end Session

end Lockstep
