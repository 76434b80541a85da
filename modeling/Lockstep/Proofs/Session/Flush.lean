import Lockstep.Proofs.Lane.Flush
import Lockstep.Proofs.Lane.Value
import Lockstep.Proofs.Session.Lasting
import Lockstep.Proofs.Typing.Session

set_option autoImplicit false

/-! # No result is subnormal

At every moment of a session, also within a round and after a fault, no component of a single-precision value is
subnormal if the value is that of an identifier which an instruction that flushes defines, and which belongs to nothing
else. What the instruction gave is stored with its subnormal components replaced by zeros of their signs; what other
instructions give, and all that is not in single precision, is stored as it is (`Session.results_are_flushed`). An
identifier that belongs to something else too can have a subnormal value (`Session.shared_id_holds_subnormal`). -/

namespace Lockstep

variable {p : Program} {P : Id → Prop} {gs : List GlobalVar} {l : Lane}

/-! ## Lanes -/

/-- Global variables that are read again are no results. -/
theorem Lane.Flushed.refreshGlobals {shared memory : Memory} (hgs : ∀ {x}, p.IsResult x → x ∉ gs.map (·.id))
    (h : l.Flushed p P shared) : (l.refreshGlobals memory gs).2.Flushed p P shared := by
  refine Lane.refreshGlobals_induction (P := fun l => l.Flushed p P shared) h fun hg _ _ h => h.assign ?_
  rintro ⟨i, hi, hid, -⟩ -
  exact absurd (List.mem_map_of_mem hg) (hgs (hi.isResult hid))

/-- The result of an instruction that flushes does not stand for memory. -/
theorem Program.Flushes.not_points {b : Bindings} {m : Memory} {x : Id} (hp : p.UniqueIds)
    (hb : ∀ g ∈ b.globals, ¬ p.IsResult g.id) (hm : m.PointsIn fun x => ¬ p.IsResult x) (h : p.Flushes x) :
    ¬ p.Points b m x := by
  obtain ⟨i, hi, hid, hflush⟩ := h
  have hx := hi.isResult hid
  intro hpoints
  cases hpoints with
  | declared hg => exact hp.apart hx hg
  | bound hmem =>
      obtain ⟨g, hg, rfl⟩ := List.mem_map.1 hmem
      exact hb g hg hx
  | result hj hop hid' =>
      obtain rfl := hp.eq_of_result hi hj hid hid'
      unfold Instr.isFlushing at hflush
      rcases hop with hop | hop <;> rw [hop] at hflush <;> cases hflush
  | pointer hq => exact (hm hq).1 hx
  | base hq => exact (hm hq).2 hx

namespace Session

variable {b : Bindings} {w : World} {inits : List LaneInit} {active : Nat} {config : Config} {s₀ s t : Session}
  {states : List StepState}

/-! ## Rounds -/

theorem lasting_flushed {m : Memory} (hp : p.UniqueIds) (hgs : ∀ {x}, p.IsResult x → x ∉ gs.map (·.id)) :
    Lasting p gs fun l w => l.Flushed p (p.Points b m) w.memory where
  step hs h := h.step hp hs fun hi hop hid => .result hi hop hid
  others hs h h' := ⟨h'.size, h'.own, (h.step hp hs fun hi hop hid => .result hi hop hid).shared, h'.value⟩
  refresh h := h.refreshGlobals hgs
  skipNops h := h.congr (congrArg Array.size (Lane.cells_skipNops ..)) (Lane.memory_skipNops ..)
    (Lane.value_skipNops ..)

/-- A lane that has entered the program has no results. -/
theorem flushed_of_start (hp : p.UniqueIds) (hb : ∀ g ∈ b.globals, ¬ p.IsResult g.id)
    (hnew : Session.new p b w inits active config = .ok s) (h : s.start.result = .ok states) {l : Lane}
    (hl : l ∈ s.start.session.lanes) : l.Flushed p (p.Points b w.memory) s.start.session.world.memory := by
  have hpointed := pointed_of_reached hnew (.started h)
  obtain ⟨index, init, henter⟩ := (fresh_of_new hnew).enter_of_start h hl
  refine ⟨(Lane.memory_of_enter henter).1.trans Array.size_replicate, hpointed.own hl, hpointed.shared, ?_⟩
  rintro x v ⟨i, hi, hid, -⟩ - hv
  have hx := hi.isResult hid
  rw [Lane.value_of_enter henter, Lane.boundBy_of_not_mem ((declares_of_new hp hb hnew).results hx),
    Lane.value_new hp hx] at hv
  cases hv

/-- Between two rounds the lanes are flushed, whatever the hosts answered. -/
theorem Reached.flushed (hp : p.UniqueIds) (hb : ∀ g ∈ b.globals, ¬ p.IsResult g.id)
    (hnew : Session.new p b w inits active config = .ok s₀) (h : Reached s₀ s) :
    s.All p s₀.bindings.globals fun l w' => l.Flushed p (p.Points b w.memory) w'.memory := by
  have hlasting := lasting_flushed (b := b) (m := w.memory) hp (declares_of_new hp hb hnew).results
  induction h with
  | started h =>
      have hreached : Reached s₀ s₀.start.session := .started h
      exact ⟨hreached.program_eq.trans (fresh_of_new hnew).program, congrArg Bindings.globals hreached.bindings_eq,
        flushed_of_start hp hb hnew h⟩
  | round _ _ ih => exact ih.round hlasting _

/-- At every moment of a session, no component of a result of an instruction that flushes is subnormal in single
    precision. A step that assigns what its instruction gives replaces the subnormal components by zeros of their signs
    if the instruction flushes, and keeps all others; it stores what other instructions give, and what is not in single
    precision, as it is. -/
theorem results_are_flushed (hp : p.UniqueIds) (hb : ∀ g ∈ b.globals, ¬ p.IsResult g.id)
    (hw : w.memory.PointsIn fun x => ¬ p.IsResult x) (hnew : Session.new p b w inits active config = .ok s₀)
    (h : Reached s₀ s) :
    (∀ t, s.Moment t → ∀ l ∈ t.lanes, ∀ (i : Instr) (x : Id) (v : Variable), p.HasInstr i → i.isFlushing →
        i.result = some x → l.value? x = some v → v.IsFlushed) ∧
      ∀ t : Move, ¬ t.lane.isFinished → t.Succeeds → ∀ (i : Instr) (x : Id) (v : Variable) (report : Bool),
        t.Executes i → t.outcome i = .ok (.effect (.assign x v report)) →
        ∃ stored, t.stepped.lane.value? x = some stored ∧ (i.isFlushing → stored.IsFlushOf v) ∧
          (¬ i.isFlushing ∨ v.elem ≠ .float → stored = v) := by
  refine ⟨fun t ht l hl i x v hi hflush hid hv => ?_, fun t hrun hok i x v report hi houtcome => ?_⟩
  · have hs := h.flushed hp hb hnew
    have hlasting := lasting_flushed (b := b) (m := w.memory) hp (declares_of_new hp hb hnew).results
    have hall : t.All p s₀.bindings.globals fun l w' => l.Flushed p (p.Points b w.memory) w'.memory := by
      cases ht with
      | turns host mask => exact hs.stepLanes hlasting host 0 mask
      | round host => exact hs.round hlasting host
    have hflushes : p.Flushes x := ⟨i, hi, hid, hflush⟩
    exact (hall.lane hl).value hflushes (hflushes.not_points hp hb hw) hv
  · exact t.stores hrun hok hi houtcome

/-- Multiplies `-2 ^ -100` by `2 ^ -40`. -/
def subnormalProduct : Instr :=
  { op := .fMul, ty := .float 32, result := some ⟨0⟩,
    args := [.const (.ofSingle 0x8d800000), .const (.ofSingle 0x2b800000)] }

/-- What the product is before it is stored, in any lane. -/
theorem outcome_subnormalProduct (t : Move) :
    ∃ given, t.outcome subnormalProduct = .ok (.effect (.assign ⟨0⟩ given true)) ∧ given.get 0 = 0x80000200 :=
  ⟨_, rfl, by decide +kernel⟩

/-- Multiplies two small numbers, the least double-precision number by one, and takes an integer as the bits of a
    number. -/
def subnormalValues : Program :=
  { stage := .compute
    functions := #[{ name := "subnormalValues", blocks := #[{}], instrs := #[subnormalProduct,
      { op := .fMul, ty := .float 64, result := some ⟨1⟩,
        args := [.const (.float 64 1), .const (.float 64 0x3ff0000000000000)] },
      { op := .bitcast, ty := .float 32, result := some ⟨2⟩, args := [.const (.int 32 0x200)] },
      { op := .ret }] }]
    idCount := 3 }

set_option synthInstance.maxSize 512 in
/-- The product of the small numbers is subnormal and becomes the negative zero. The one in double precision and the
    bits, which are also subnormal, are kept. -/
theorem subnormalValues_flushed :
    ∃ (s₀ s : Session) (t : Move) (l : Lane) (given stored v : Variable),
      Session.new subnormalValues {} {} [{}] 0 {} = .ok s₀ ∧
      t.lane ∈ s₀.start.session.lanes ∧ t.Executes subnormalProduct ∧
      t.outcome subnormalProduct = .ok (.effect (.assign ⟨0⟩ given true)) ∧ given.get 0 = 0x80000200 ∧
      t.stepped.lane.value? ⟨0⟩ = some stored ∧ stored.IsFlushOf given ∧
      Reached s₀ s ∧ l ∈ (s.round .unbound).session.lanes ∧ l.value? ⟨0⟩ = some v ∧ v.IsFlushed ∧
      v.get 0 = 0x80000000 ∧ (l.value? ⟨1⟩).any (·.get 0 == 1) ∧ (l.value? ⟨2⟩).any (·.get 0 == 0x200) := by
  have h : ∃ s₀, Session.new subnormalValues {} {} [{}] 0 {} = .ok s₀ ∧ ∃ states, s₀.start.result = .ok states ∧
      (∃ l₀, s₀.start.session.lanes[0]? = some l₀ ∧ ((¬ l₀.isFinished ∧ l₀.hasPlace ⟨0⟩) ∧
        (s₀.start.session.analyses.of? l₀.function).isSome ∧ l₀.function = 0 ∧ l₀.instr = 0 ∧
        (Move.mk l₀ (s₀.start.session.setting .unbound 0) s₀.start.session.world).Succeeds)) ∧
      ∃ s, s₀.start.session.advance .unbound 2 = .ok s ∧ ∃ l, (s.round .unbound).session.lanes[0]? = some l ∧
        ∃ v, l.value? ⟨0⟩ = some v ∧ (v.get 0 = 0x80000000 ∧
          (l.value? ⟨1⟩).any (·.get 0 == 1) ∧ (l.value? ⟨2⟩).any (·.get 0 == 0x200)) := by
    decide +kernel
  obtain ⟨s₀, hnew, states, hstart, ⟨l₀, hl₀, hready, hanalysis, hfunction, hinstr, hok⟩, s, hs, l, hl, v, hv, hzero,
    hkept⟩ := h
  have hreached : Reached s₀ s := (Reached.started hstart).advance hs
  have hprogram : s₀.start.session.program = subnormalValues :=
    (Reached.started hstart).program_eq.trans (fresh_of_new hnew).program
  have hat : l₀.AboutTo s₀.start.session.program s₀.start.session.analyses subnormalProduct ⟨0⟩ :=
    .of_program hprogram hready hanalysis hfunction hinstr rfl rfl
  have hexecutes :
      (Move.mk l₀ (s₀.start.session.setting .unbound 0) s₀.start.session.world).Executes subnormalProduct := hat.next
  have hmemory : (World.memory {}).PointsIn fun x => ¬ subnormalValues.IsResult x := by
    intro x q hq
    cases (Table.get?_empty x).symm.trans hq
  obtain ⟨hmoment, hmove⟩ :=
    results_are_flushed (by decide) (fun _ hg => absurd hg List.not_mem_nil) hmemory hnew hreached
  have hmem := List.mem_of_getElem? hl
  have hproduct : subnormalValues.HasInstr subnormalProduct :=
    ⟨_, Array.mem_singleton.2 rfl, Array.mem_of_getElem? (i := 0) rfl⟩
  have hflushed := hmoment _ (.round .unbound) l hmem subnormalProduct ⟨0⟩ v hproduct rfl rfl hv
  obtain ⟨given, hgiven, hbits⟩ :=
    outcome_subnormalProduct ⟨l₀, s₀.start.session.setting .unbound 0, s₀.start.session.world⟩
  obtain ⟨stored, hstored, hflush, -⟩ := hmove _ hready.1 hok subnormalProduct ⟨0⟩ given true hexecutes hgiven
  exact ⟨s₀, s, _, l, given, stored, v, hnew, List.mem_of_getElem? hl₀, hexecutes, hgiven, hbits, hstored, hflush rfl,
    hreached, hmem, hv, hflushed, hzero, hkept⟩

/-- A lane between two rounds of a session holds a subnormal number for an identifier that an instruction which flushes
    defines. -/
def HoldsSubnormal (p : Program) (b : Bindings) (w : World) : Prop :=
  ∃ (s₀ s : Session) (l : Lane) (i : Instr) (x : Id) (v : Variable), Session.new p b w [{}] 0 {} = .ok s₀ ∧
    Reached s₀ s ∧ l ∈ s.lanes ∧ p.HasInstr i ∧ i.isFlushing ∧ i.result = some x ∧ l.value? x = some v ∧
    ¬ v.IsFlushed

/-- Multiplies one by one. -/
def unitProduct : Instr :=
  { op := .fMul, ty := .float 32, result := some ⟨0⟩,
    args := [.const (.ofSingle 0x3f800000), .const (.ofSingle 0x3f800000)] }

/-- Two rounds at most lead to a subnormal number in the place of the product. -/
theorem holdsSubnormal_of_advance {p : Program} {b : Bindings} {w : World} (rounds : Nat)
    (hi : p.HasInstr unitProduct)
    (h : ∃ s₀, Session.new p b w [{}] 0 {} = .ok s₀ ∧ ∃ states, s₀.start.result = .ok states ∧
      ∃ s, s₀.start.session.advance .unbound rounds = .ok s ∧ ∃ l, s.lanes[0]? = some l ∧
        ∃ v, l.value? ⟨0⟩ = some v ∧ (v.elem = .float ∧ 0 < v.compCount ∧
          FloatFormat.single.isSubnormal (v.get 0))) :
    HoldsSubnormal p b w := by
  obtain ⟨s₀, hnew, states, hstart, s, hs, l, hl, v, hv, helem, hcount, hsub⟩ := h
  exact ⟨s₀, s, l, unitProduct, ⟨0⟩, v, hnew, (Reached.started hstart).advance hs, List.mem_of_getElem? hl, hi, rfl,
    rfl, hv, fun hflushed => hflushed helem 0 hcount hsub⟩

/-- The product and nothing else. -/
def onlyProduct : Function := { name := "product", blocks := #[{}], instrs := #[unitProduct, { op := .ret }] }

/-- A global variable with the least positive number, that has the identifier of the product. -/
def globalNamedAsProduct : Program :=
  { stage := .compute
    functions := #[onlyProduct]
    globals := [{ id := ⟨0⟩, name := "least", ty := .pointer (.float 32) .groupShared, init := some (.ofSingle 1) }]
    idCount := 1 }

/-- Takes an integer as the bits of a number. The product with the same identifier is in a function that is not run. -/
def bitsNamedAsProduct : Program :=
  { stage := .compute
    functions := #[
      { name := "bits", blocks := #[{}], instrs := #[
        { op := .bitcast, ty := .float 32, result := some ⟨0⟩, args := [.const (.int 32 1)] }, { op := .ret }] },
      onlyProduct]
    idCount := 1 }

/-- Stores the least positive number through the identifier of the product. -/
def storeThroughProduct : Program :=
  { stage := .compute
    functions := #[{ name := "store", blocks := #[{}], instrs := #[unitProduct,
      { op := .store, args := [.ref ⟨0⟩, .const (.ofSingle 1)] }, { op := .ret }] }]
    idCount := 1 }

set_option synthInstance.maxSize 512 in
/-- Where an identifier of a product also belongs to a global variable of the program, to another result, to a global
    variable of the host, or to a pointer of the host, what a lane holds for it can be subnormal. -/
theorem shared_id_holds_subnormal :
    HoldsSubnormal globalNamedAsProduct {} {} ∧ HoldsSubnormal bitsNamedAsProduct {} {} ∧
      (storeThroughProduct.UniqueIds ∧
        HoldsSubnormal storeThroughProduct { globals := [⟨⟨0⟩, (Constant.ofSingle 1).toVariable⟩] } {}) ∧
      (storeThroughProduct.UniqueIds ∧
        HoldsSubnormal storeThroughProduct {} { memory := Memory.allocate {} ⟨0⟩ (.float 32) true }) := by
  have hinstr : ∀ {p : Program} {f : Function} (k : Nat), p.functions[k]? = some f → f.instrs[0]? = some unitProduct →
      p.HasInstr unitProduct := fun k hf hi => ⟨_, Array.mem_of_getElem? hf, Array.mem_of_getElem? hi⟩
  refine ⟨?ofProgram, ?ofResult, ⟨by decide, ?ofHost⟩, ⟨by decide, ?ofPointer⟩⟩
  case ofProgram => exact holdsSubnormal_of_advance 0 (hinstr 0 rfl rfl) (by decide +kernel)
  case ofResult => exact holdsSubnormal_of_advance 1 (hinstr 1 rfl rfl) (by decide +kernel)
  case ofHost => exact holdsSubnormal_of_advance 0 (hinstr 0 rfl rfl) (by decide +kernel)
  case ofPointer => exact holdsSubnormal_of_advance 2 (hinstr 0 rfl rfl) (by decide +kernel)

end Session

end Lockstep
