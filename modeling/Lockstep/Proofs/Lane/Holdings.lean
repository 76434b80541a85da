import Lockstep.Proofs.Lane.Replay
import Mathlib.Logic.Function.Basic

set_option autoImplicit false

/-! # What a step does to values and memory

A lane holds values, its own memory, and its part in the shared memory. A step changes what it holds in
one of a few ways, which depend on the instruction (`Lane.does_of_step`): only instructions on memory
change memory, and each instruction assigns its own result, or else the output or what a store
refreshes. -/

namespace Lockstep

/-- Whether the instruction reaches memory through pointers. -/
def Instr.usesMemory (i : Instr) : Bool :=
  match i.op with
  | .alloca | .load | .loadAtomic | .getElementPtr => true
  | _ => i.writesMemory

theorem Instr.usesMemory_of_writesMemory {i : Instr} (h : i.writesMemory) : i.usesMemory := by
  unfold usesMemory
  split
  · rfl
  · rfl
  · rfl
  · rfl
  · exact h

/-! ## Holdings -/

/-- The values of a lane, its own memory and the shared one. -/
structure Holdings where
  values : Id → Option Variable
  own : Memory
  shared : Memory

namespace Holdings

/-- The memory that has an allocation: the lane's own, or else the shared one. -/
def memoryOf (d : Holdings) (base : Id) : Memory :=
  if d.own.hasAllocation base then d.own else d.shared

/-- The bytes that a pointer addresses. -/
def read (d : Holdings) (q : Pointer) : Except Fault Bytes := (d.memoryOf q.base).read q

/-- Give an identifier a value. -/
def set (d : Holdings) (id : Id) (v : Variable) : Holdings :=
  { d with values := Function.update d.values id (some v) }

/-- Bytes are written through a pointer. -/
inductive Writes (q : Pointer) (bytes : Bytes) (d : Holdings) : Holdings → Prop
  | own {own : Memory} (hbase : d.own.hasAllocation q.base) (h : d.own.write q bytes = .ok own) :
      Writes q bytes d { d with own }
  | shared {shared : Memory} (hbase : ¬ d.own.hasAllocation q.base)
      (h : d.shared.write q bytes = .ok shared) : Writes q bytes d { d with shared }

/-- After a write through the pointer of an identifier, the variable of the allocation shows its new
    content, and so does the variable of the pointer. -/
inductive Refreshes (id : Id) (q : Pointer) (d : Holdings) : Holdings → Prop
  | base {old : Variable} {a : Allocation} (hid : id = q.base) (hold : d.values q.base = some old)
      (ha : (d.memoryOf q.base).allocation? q.base = some a) :
      Refreshes id q d (d.set q.base (old.ofBytes a.bytes))
  | derived {old v : Variable} {a : Allocation} {bytes : Bytes} (hid : id ≠ q.base)
      (hold : d.values q.base = some old)
      (ha : (d.memoryOf q.base).allocation? q.base = some a)
      (hv : d.values id = some v) (hread : d.read q = .ok bytes) :
      Refreshes id q d ((d.set q.base (old.ofBytes a.bytes)).set id (v.ofBytes bytes))

section

variable {q : Pointer} {bytes : Bytes} {d d' : Holdings} {id : Id}

theorem Writes.values_eq (h : d.Writes q bytes d') : d'.values = d.values := by
  cases h <;> rfl

theorem Writes.pointers_eq (h : d.Writes q bytes d') :
    d'.own.pointers = d.own.pointers ∧ d'.shared.pointers = d.shared.pointers := by
  cases h with
  | own _ h => exact ⟨(Memory.write_ok h).1, rfl⟩
  | shared _ h => exact ⟨rfl, (Memory.write_ok h).1⟩

theorem Writes.hasAllocation_eq (h : d.Writes q bytes d') :
    (∀ base, d'.own.hasAllocation base = d.own.hasAllocation base) ∧
      ∀ base, d'.shared.hasAllocation base = d.shared.hasAllocation base := by
  cases h with
  | own _ h => exact ⟨(Memory.write_ok h).2.1, fun _ => rfl⟩
  | shared _ h => exact ⟨fun _ => rfl, (Memory.write_ok h).2.1⟩

theorem Writes.allocation_eq (h : d.Writes q bytes d') {base : Id} (hbase : base ≠ q.base) :
    d'.own.allocation? base = d.own.allocation? base := by
  cases h with
  | own _ h => exact (Memory.write_ok h).2.2 base hbase
  | shared _ h => rfl

theorem Refreshes.memory_eq (h : d.Refreshes id q d') : d'.own = d.own ∧ d'.shared = d.shared := by
  cases h <;> exact ⟨rfl, rfl⟩

end

theorem set_self (d : Holdings) (id : Id) (v : Variable) : (d.set id v).values id = some v :=
  Function.update_self ..

theorem set_of_ne (d : Holdings) {id id' : Id} (h : id' ≠ id) (v : Variable) :
    (d.set id v).values id' = d.values id' :=
  Function.update_of_ne h ..

end Holdings

namespace Lane

variable {l : Lane} {id : Id} {v : Variable}

/-- What a lane holds. -/
def holdings (l : Lane) (w : World) : Holdings := ⟨l.value?, l.memory, w.memory⟩

/-! ## Values -/

theorem hasPlace_of_value (h : l.value? id = some v) : l.hasPlace id := by
  unfold value? inputId outputId at h
  simp only [hasPlace, decide_eq_true_eq]
  split at h
  · omega
  · split at h
    · next hid => simp [hid]
    · split at h
      · next hid => simp [hid]
      · cases h

theorem assign_inputId (l : Lane) (v : Variable) : l.assign l.inputId v = { l with input := v } := by
  unfold assign inputId
  rw [if_neg (Nat.lt_irrefl _), if_pos rfl]

/-- An assigned value is the one that an identifier has. -/
theorem value_assign (hid : l.hasPlace id) (v : Variable) :
    (l.assign id v).value? = Function.update l.value? id (some v) := by
  simp only [hasPlace, decide_eq_true_eq] at hid
  funext x
  rw [Function.update_apply]
  by_cases hlt : id.index < l.cells.size
  · unfold value? inputId outputId
    rw [size_assign, assign, if_pos hlt]
    dsimp only
    by_cases hx : x = id
    · subst hx
      rw [if_pos hlt, if_pos rfl, Array.getElem?_modify, if_pos rfl, Array.getElem?_eq_getElem hlt]
      rfl
    · rw [if_neg hx, Array.getElem?_modify, if_neg fun h : id.index = x.index => hx (congrArg Id.mk h.symm)]
  · have hcases : id = l.inputId ∨ id = l.outputId := by
      rcases Nat.lt_or_eq_of_le (Nat.le_of_not_lt hlt) with h | h
      · exact .inr (congrArg Id.mk (show id.index = l.cells.size + 1 by omega))
      · exact .inl (congrArg Id.mk h.symm)
    unfold value?
    rcases hcases with rfl | rfl
    · rw [assign_inputId]
      show (if x.index < l.cells.size then _ else if x = l.inputId then some v else _) = _
      by_cases hx : x = l.inputId
      · subst hx
        rw [if_neg hlt, if_pos rfl, if_pos rfl]
      · rw [if_neg hx, if_neg hx, if_neg hx]
        rfl
    · rw [assign_outputId]
      show (if x.index < l.cells.size then _ else if x = l.inputId then _ else
        if x = l.outputId then some v else _) = _
      by_cases hx : x = l.outputId
      · subst hx
        rw [if_neg hlt, if_neg (by simp [inputId, outputId]), if_pos rfl, if_pos rfl]
      · rw [if_neg hx, if_neg hx, if_neg hx]

/-- To assign an identifier without a place changes nothing. -/
theorem assign_of_not_hasPlace (h : ¬ l.hasPlace id) (v : Variable) : l.assign id v = l := by
  unfold hasPlace at h
  simp only [decide_eq_true_eq, Nat.not_lt] at h
  have hinput : id ≠ l.inputId := by
    intro heq
    have hindex : id.index = l.cells.size := congrArg Id.index heq
    omega
  have houtput : id ≠ l.outputId := by
    intro heq
    have hindex : id.index = l.cells.size + 1 := congrArg Id.index heq
    omega
  unfold assign
  rw [if_neg (by omega), if_neg hinput, if_neg houtput]

/-- After an assignment there are the value that has been assigned and those that there were before. -/
theorem value_cases_of_assign {x : Id} {v' : Variable} (h : (l.assign id v).value? x = some v') :
    x = id ∧ v' = v ∨ l.value? x = some v' := by
  by_cases hplace : l.hasPlace id
  · rw [value_assign hplace, Function.update_apply] at h
    split at h
    · next heq => exact .inl ⟨heq, (Option.some.inj h).symm⟩
    · exact .inr h
  · rw [assign_of_not_hasPlace hplace] at h
    exact .inr h

theorem value_bringIntoScope (l : Lane) (id : Id) : (l.bringIntoScope id).value? = l.value? := by
  funext x
  unfold value? inputId outputId bringIntoScope
  rw [Array.size_modify]
  split
  · rw [Array.getElem?_modify]
    split
    · cases l.cells[x.index]? <;> rfl
    · rfl
  · rfl

theorem value_retire (l : Lane) (a : FunctionAnalysis) (keep : Option Id) :
    (l.retire a keep).value? = l.value? := by
  funext x
  unfold value? inputId outputId retire
  rw [Array.size_mapIdx]
  split
  · rw [Array.getElem?_mapIdx]
    cases l.cells[x.index]? with
    | none => rfl
    | some c =>
        show (if retires a l.point keep ⟨x.index⟩ c then { c with isLive := false } else c).value =
          c.value
        split <;> rfl
  · rfl

theorem value_jumpTo {a : FunctionAnalysis} {b : Nat} {l' : Lane} (h : l.jumpTo a b = .ok l') :
    l'.value? = l.value? ∧ l'.memory = l.memory := by
  obtain ⟨_, -, rfl⟩ := jumpTo_ok h
  exact ⟨rfl, rfl⟩

theorem holdings_assign (w : World) (hid : l.hasPlace id) (v : Variable) :
    (l.assign id v).holdings w = (l.holdings w).set id v := by
  rw [holdings, value_assign hid, memory_assign]
  rfl

end Lane

namespace Step

variable {s : Setting} {i : Instr} {m m' : Machine} {id : Id} {q : Pointer} {bytes : Bytes}
  {v : Variable} {e : Effect} {o : Outcome} {a : FunctionAnalysis}

/-! ## Memory -/

theorem read_of_readThrough (h : (readThrough q).on m = (.ok bytes, m')) :
    m' = m ∧ (m.lane.holdings m.world).read q = .ok bytes :=
  readThrough_ok h

theorem writes_of_writeThrough (h : (writeThrough q bytes).on m = (.ok (), m')) :
    (m.lane.holdings m.world).Writes q bytes (m'.lane.holdings m'.world) := by
  unfold writeThrough at h
  obtain ⟨l, _, hlane, h₁⟩ := ok_of_on_bind h
  cases hlane
  split at h₁
  · next hbase =>
      obtain ⟨l, _, hlane, h₂⟩ := ok_of_on_bind h₁
      cases hlane
      obtain ⟨memory, _, hwrite', h₃⟩ := ok_of_on_bind h₂
      obtain ⟨rfl, hwrite⟩ := ok_of_lift hwrite'
      cases h₃
      exact .own hbase hwrite
  · next hbase =>
      obtain ⟨shared, _, hshared, h₂⟩ := ok_of_on_bind h₁
      cases hshared
      obtain ⟨memory, _, hwrite', h₃⟩ := ok_of_on_bind h₂
      obtain ⟨rfl, hwrite⟩ := ok_of_lift hwrite'
      cases h₃
      exact .shared hbase hwrite

theorem holdings_of_overwrite (hvalue : (m.lane.value? id).isSome)
    (h : (overwrite id v).on m = (.ok (), m')) :
    m'.lane.holdings m'.world = (m.lane.holdings m.world).set id v := by
  obtain ⟨w, hw⟩ := Option.isSome_iff_exists.1 hvalue
  have hplace := Lane.hasPlace_of_value hw
  unfold overwrite at h
  obtain ⟨l, _, hlane, h₁⟩ := ok_of_on_bind h
  cases hlane
  rw [if_pos hplace] at h₁
  cases h₁
  exact Lane.holdings_assign _ hplace v

/-- A store writes, refreshes the variable of the allocation, and leaves that of the pointer to be
    assigned. -/
theorem refreshes_of_store {target : Id} (h : (store id q bytes).on m = (.ok (target, v), m')) :
    ∃ d, (m.lane.holdings m.world).Writes q bytes d ∧
      d.Refreshes id q ((m'.lane.holdings m'.world).set target v) ∧
      (m'.lane.value? target).isSome := by
  unfold store at h
  obtain ⟨_, _, hwrite, h₁⟩ := ok_of_on_bind h
  have hwrites := writes_of_writeThrough hwrite
  obtain ⟨l, _, hlane, h₂⟩ := ok_of_on_bind h₁
  cases hlane
  obtain ⟨shared, _, hshared, h₃⟩ := ok_of_on_bind h₂
  cases hshared
  obtain ⟨old, _, hassigned, h₄⟩ := ok_of_on_bind h₃
  obtain ⟨rfl, hold⟩ := assigned_ok hassigned
  obtain ⟨after, m₁, hafter', h₅⟩ := ok_of_on_bind h₄
  obtain ⟨rfl, hreload⟩ := ok_of_lift hafter'
  obtain ⟨a, ha, rfl⟩ := Memory.reload_ok hreload
  refine ⟨_, hwrites, ?_⟩
  split at h₅
  · next heq =>
      cases h₅
      exact ⟨.base heq hold ha, Option.isSome_of_eq_some hold⟩
  · next hne =>
      obtain ⟨_, m₂, hover, h₆⟩ := ok_of_on_bind h₅
      have hset := holdings_of_overwrite (Option.isSome_of_eq_some hold) hover
      obtain ⟨x, _, hx', h₇⟩ := ok_of_on_bind h₆
      obtain ⟨rfl, hx⟩ := assigned_ok hx'
      obtain ⟨content, _, hread', h₈⟩ := ok_of_on_bind h₇
      obtain ⟨rfl, hread⟩ := read_of_readThrough hread'
      cases h₈
      refine ⟨?_, Option.isSome_of_eq_some hx⟩
      rw [hset] at hread ⊢
      have hvalue : (m₁.lane.holdings m₁.world).values id = some x := by
        rw [← Holdings.set_of_ne _ hne, ← hset]
        exact hx
      exact .derived hne hold ha hvalue hread

theorem alloca_ok (h : (alloca i).on m = (.ok e, m')) :
    ∃ id pointee, i.result = some id ∧ i.ty.pointee? = some pointee ∧
      e = .value id (.zeroed (i.resultName id) pointee) ∧
      m' = { m with lane := { m.lane with memory := m.lane.memory.allocate id pointee false } } := by
  unfold alloca at h
  obtain ⟨id, _, hid', h₁⟩ := ok_of_on_bind h
  obtain ⟨rfl, hid⟩ := ok_of_lift hid'
  obtain ⟨l, _, hlane, h₂⟩ := ok_of_on_bind h₁
  cases hlane
  obtain ⟨⟨v, memory⟩, _, hmemory', h₃⟩ := ok_of_on_bind h₂
  obtain ⟨rfl, hmemory⟩ := ok_of_lift hmemory'
  obtain ⟨pointee, hpointee, heq⟩ := Memory.allocateFor_ok hmemory
  cases heq
  cases h₃
  exact ⟨id, pointee, Instr.yields_resultId id hid, hpointee, rfl, rfl⟩

theorem load_ok (h : (load i).on m = (.ok e, m')) :
    ∃ id src q bytes, i.result = some id ∧ i.argId 0 = .ok src ∧
      m.lane.resolve m.world.memory src = .ok q ∧ (m.lane.holdings m.world).read q = .ok bytes ∧
      e = .value id ((Variable.zeroed (i.resultName id) i.ty).ofBytes bytes) ∧ m' = m := by
  unfold load at h
  obtain ⟨⟨id, result⟩, _, hblank', h₁⟩ := ok_of_on_bind h
  obtain ⟨rfl, hblank⟩ := ok_of_lift hblank'
  obtain ⟨id', hid, heq⟩ := ok_of_map hblank
  cases heq
  obtain ⟨⟨src, q⟩, _, hpointer, h₂⟩ := ok_of_on_bind h₁
  obtain ⟨rfl, hsrc, hq⟩ := pointerArg_ok hpointer
  obtain ⟨bytes, _, hread', h₃⟩ := ok_of_on_bind h₂
  obtain ⟨rfl, hread⟩ := read_of_readThrough hread'
  cases h₃
  exact ⟨id, src, q, bytes, Instr.yields_resultId id hid, hsrc, hq, hread, rfl, rfl⟩

theorem elementPointer_ok (h : (elementPointer i).on m = (.ok e, m')) :
    ∃ id q bytes, i.result = some id ∧ m.lane.derive m.world.memory i = .ok q ∧
      (m.lane.holdings m.world).read q = .ok bytes ∧
      e = .value id ((Variable.zeroed (i.resultName id) q.pointee).ofBytes bytes) ∧
      m' = { m with lane := { m.lane with memory := m.lane.memory.addPointer id q } } := by
  unfold elementPointer at h
  obtain ⟨id, _, hid', h₁⟩ := ok_of_on_bind h
  obtain ⟨rfl, hid⟩ := ok_of_lift hid'
  obtain ⟨l, _, hlane, h₂⟩ := ok_of_on_bind h₁
  cases hlane
  obtain ⟨shared, _, hshared, h₃⟩ := ok_of_on_bind h₂
  cases hshared
  obtain ⟨q, _, hq', h₄⟩ := ok_of_on_bind h₃
  obtain ⟨rfl, hq⟩ := ok_of_lift hq'
  obtain ⟨bytes, _, hread', h₅⟩ := ok_of_on_bind h₄
  obtain ⟨rfl, hread⟩ := read_of_readThrough hread'
  cases h₅
  exact ⟨id, q, bytes, Instr.yields_resultId id hid, hq, hread, rfl, rfl⟩

theorem storeArg_ok (h : (storeArg i).on m = (.ok e, m')) :
    ∃ src q v target after, i.argId 0 = .ok src ∧ m.lane.resolve m.world.memory src = .ok q ∧
      m.lane.arg i 1 = .ok v ∧ (store src q v.toBytes).on m = (.ok (target, after), m') ∧
      e = .value target after := by
  unfold storeArg at h
  obtain ⟨⟨src, q⟩, _, hpointer, h₁⟩ := ok_of_on_bind h
  obtain ⟨rfl, hsrc, hq⟩ := pointerArg_ok hpointer
  obtain ⟨v, _, hv', h₂⟩ := ok_of_on_bind h₁
  obtain ⟨rfl, hv⟩ := arg_ok hv'
  obtain ⟨⟨target, after⟩, _, hstore, h₃⟩ := ok_of_on_bind h₂
  cases h₃
  exact ⟨src, q, v, target, after, hsrc, hq, hv, hstore, rfl⟩

/-- The value that an atomic update finds. -/
def found (q : Pointer) (bytes : Bytes) : Variable := (Variable.zeroed "" q.pointee).ofBytes bytes

theorem atomic_ok (h : (atomic i).on m = (.ok e, m')) :
    ∃ src q operand bytes bits target after m₁, i.argId 0 = .ok src ∧
      m.lane.resolve m.world.memory src = .ok q ∧ m.lane.arg i 1 = .ok operand ∧
      (m.lane.holdings m.world).read q = .ok bytes ∧
      i.op.combine? operand.elem.bits ((found q bytes).get 0) (operand.get 0) = some bits ∧
      (store src q ((found q bytes).set 0 bits).toBytes).on m = (.ok (target, after), m₁) ∧
      ((i.result = none ∧ m' = m₁ ∧ e = .value target after) ∨
        ∃ id, i.result = some id ∧ (overwrite target after).on m₁ = (.ok (), m') ∧
          e = .value id ((found q bytes).withName (i.resultName id))) := by
  unfold atomic at h
  obtain ⟨⟨src, q⟩, _, hpointer, h₁⟩ := ok_of_on_bind h
  obtain ⟨rfl, hsrc, hq⟩ := pointerArg_ok hpointer
  obtain ⟨operand, _, hoperand', h₂⟩ := ok_of_on_bind h₁
  obtain ⟨rfl, hoperand⟩ := arg_ok hoperand'
  obtain ⟨bytes, _, hread', h₃⟩ := ok_of_on_bind h₂
  obtain ⟨rfl, hread⟩ := read_of_readThrough hread'
  dsimp only at h₃
  split at h₃
  · cases h₃
  · next bits hbits =>
      obtain ⟨⟨target, after⟩, m₁, hstore, h₄⟩ := ok_of_on_bind h₃
      refine ⟨src, q, operand, bytes, bits, target, after, m₁, hsrc, hq, hoperand, hread, hbits,
        hstore, ?_⟩
      dsimp only at h₄
      split at h₄
      · next hresult =>
          cases h₄
          exact .inl ⟨hresult, rfl, rfl⟩
      · next id hresult =>
          obtain ⟨_, m₂, hover, h₅⟩ := ok_of_on_bind h₄
          cases h₅
          exact .inr ⟨id, hresult, hover, rfl⟩

/-! ## Other instructions -/

/-- Nothing has been done to what a lane holds. -/
structure Beside (l₀ : Lane) (shared₀ : Memory) (m : Machine) : Prop where
  lane : m.lane = { l₀ with
    references := m.lane.references, properties := m.lane.properties, accessed := m.lane.accessed }
  memory : m.world.memory = shared₀

namespace Beside

variable {l₀ : Lane} {shared₀ : Memory}

theorem modifyLane {f : Lane → Lane} (hf : ∀ l, f l = { l with
      references := (f l).references, properties := (f l).properties, accessed := (f l).accessed }) :
    Sim (Twice (Beside l₀ shared₀)) Eq (Step.modifyLane f) (Step.modifyLane f) := by
  refine .modifyLane fun {m n} hm => ?_
  obtain ⟨rfl, hlane, hmemory⟩ := hm
  refine ⟨rfl, ?_, hmemory⟩
  show f n.lane = _
  rw [hf n.lane, hlane]

theorem onWorld {α : Type} {f : World → α × World} (hf : ∀ w, (f w).2.memory = w.memory) :
    Sim (Twice (Beside l₀ shared₀)) Eq (Step.onWorld f) (Step.onWorld f) := by
  constructor
  rintro m _ a m' ⟨rfl, hm⟩ hok
  cases hok
  exact ⟨_, _, rfl, rfl, rfl, hm.lane, (hf _).trans hm.memory⟩

theorem noteUse (s : Setting) (name : String) (ref : ResourceRef) :
    Sim (Twice (Beside l₀ shared₀)) Eq (Step.noteUse s name ref) (Step.noteUse s name ref) := by
  unfold Step.noteUse
  refine .ite (fun _ => .ofLane fun {m n} hm => ?_) fun _ => .pure rfl
  obtain ⟨rfl, -⟩ := hm
  have hnote : ∀ c, Sim (Twice (Beside l₀ shared₀)) Eq (Step.note c) (Step.note c) := fun c =>
    .note fun h => ⟨h.1 ▸ rfl, h.2.lane, h.2.memory⟩
  exact .ite (fun _ => hnote _) fun _ => .next (modifyLane fun _ => rfl) fun _ => hnote _

/-- What an instruction reads and does that is none on memory. -/
theorem mirror (hi : ¬ i.usesMemory) :
    Mirror (Twice (Beside l₀ shared₀))
      (fun e e' => e' = e ∧ ∀ {id v report}, e = .assign id v report →
        i.result = some id ∨ id = l₀.outputId)
      (fun _ => True) s s i where
  program := rfl
  bindings := rfl
  agrees h := h.1 ▸ .refl ..
  memory h := h.1 ▸ rfl
  group _ _ _ _ h := h.1 ▸ .refl ..
  pointer _ _ _ := trivial
  base h _ := h.1 ▸ rfl
  ask r := onWorld fun _ => rfl
  srv slot := onWorld fun _ => World.memory_srv ..
  uav slot := onWorld fun _ => World.memory_uav ..
  setUav _ _ _ _ := .modifyWorld fun h => ⟨h.1 ▸ rfl, h.2.lane, h.2.memory⟩
  raise e := .raise fun h => ⟨h.1 ▸ rfl, h.2.lane, h.2.memory⟩
  noteUse _ _ name ref := noteUse s name ref
  refer id ref := modifyLane fun _ => rfl
  describe id properties := modifyLane fun _ => rfl
  allocate hop := absurd (by rw [Instr.usesMemory, hop]) hi
  addPointer hop := absurd (by rw [Instr.usesMemory, hop]) hi
  write hwrites := absurd (Instr.usesMemory_of_writesMemory hwrites) hi
  overwrite hwrites := absurd (Instr.usesMemory_of_writesMemory hwrites) hi
  proceed _ := ⟨rfl, fun h => nomatch h⟩
  gives _ e he := by
    refine ⟨rfl, ?_⟩
    cases he with
    | proceed _ => exact fun h => nomatch h
    | kill => exact fun h => nomatch h
    | value id v hid _ =>
        rintro _ _ _ ⟨⟩
        exact .inl hid
  loaded _ _ _ _ hid _ _ := by
    refine ⟨rfl, ?_⟩
    rintro _ _ _ ⟨⟩
    exact .inl hid
  silent _ _ _ _ hid _ := by
    refine ⟨rfl, ?_⟩
    rintro _ _ _ ⟨⟩
    exact .inl hid
  stored hwrites := absurd (Instr.usesMemory_of_writesMemory hwrites) hi
  output _ m n h e he := by
    refine ⟨e, h.1 ▸ he, rfl, ?_⟩
    rcases Lane.storeOutput_ok he with rfl | ⟨members, rfl⟩
    · exact fun h => nomatch h
    · rintro _ _ _ ⟨⟩
      rw [h.2.lane]
      exact .inr rfl

/-- An instruction that is none on memory leaves what a lane holds as it is. -/
theorem of_instruction (hi : ¬ i.usesMemory) (hok : (Step.instruction s i).on m = (.ok o, m')) :
    Beside m.lane m.world.memory m' ∧ ∀ {id v report}, o = .effect (.assign id v report) →
      i.result = some id ∨ id = m.lane.outputId := by
  have hbeside : Twice (Beside m.lane m.world.memory) m m := ⟨rfl, rfl, rfl⟩
  obtain ⟨o', n', hok', houtcomes, -, hm'⟩ := (mirror hi).instruction.ok hbeside hok
  refine ⟨hm', ?_⟩
  cases houtcomes with
  | effect _ he =>
      rintro _ _ _ ⟨⟩
      exact he.2 rfl
  | terminate _ ho =>
      rintro id v report rfl
      rcases ho with ⟨b, -, ho⟩ | ho | ho
      · cases ho
      · cases ho
      · cases ho

end Beside

/-! ## Outcomes -/

/-- An outcome gives an identifier its value, or leaves all values as they are. -/
theorem holdings_of_conclude (h : (conclude a i o).on m = (.ok (), m')) :
    (∃ id v report, o = .effect (.assign id v report) ∧
      m'.lane.holdings m'.world = (m.lane.holdings m.world).set id (i.assigned v)) ∨
    ((∀ id v report, o ≠ .effect (.assign id v report)) ∧
      m'.lane.holdings m'.world = m.lane.holdings m.world) := by
  have hretire : ∀ (l : Lane) (w : World) (keep : Option Id),
      (l.retire a keep).holdings w = l.holdings w := fun l w keep =>
    congrArg (Holdings.mk · l.memory w.memory) (l.value_retire a keep)
  cases o with
  | leave =>
      cases h
      exact .inr ⟨fun _ _ _ h => (nomatch h), rfl⟩
  | jump b =>
      refine .inr ⟨fun _ _ _ h => (nomatch h), ?_⟩
      obtain ⟨l, _, hlane, h₁⟩ := ok_of_on_bind h
      cases hlane
      obtain ⟨l', _, hjump, h₂⟩ := ok_of_on_bind h₁
      obtain ⟨rfl, hl'⟩ := ok_of_lift hjump
      obtain ⟨_, m₁, hmodify, h₃⟩ := ok_of_on_bind h₂
      cases hmodify
      cases (on_retire ..).symm.trans h₃
      obtain ⟨hvalue, hmemory⟩ := Lane.value_jumpTo hl'
      rw [hretire, Lane.holdings, hvalue, hmemory]
      rfl
  | effect e =>
      cases e with
      | proceed =>
          cases (on_retire ..).symm.trans h
          exact .inr ⟨fun _ _ _ h => (nomatch h), hretire ..⟩
      | kill =>
          cases h
          exact .inr ⟨fun _ _ _ h => (nomatch h), rfl⟩
      | assign id v report =>
          refine .inl ⟨id, v, report, rfl, ?_⟩
          obtain ⟨_, m₁, hok, h₁⟩ := ok_of_on_bind h
          cases (on_retire ..).symm.trans hok
          obtain ⟨hplace, events, rfl⟩ := assign_ok h₁
          dsimp only
          rw [Lane.holdings, Lane.value_bringIntoScope, ← hretire m.lane m.world (some id),
            ← Lane.holdings_assign _ hplace]
          rfl

end Step

/-! ## Steps -/

/-- What an instruction makes of what a lane holds. -/
inductive Lane.Does (s : Setting) (i : Instr) (l : Lane) (w : World) : Holdings → Prop
  | rests (hi : ¬ i.usesMemory) : Does s i l w (l.holdings w)
  | gives {id : Id} {v : Variable} {report : Bool} {m : Machine} (hi : ¬ i.usesMemory)
      (hid : i.result = some id ∨ id = l.outputId)
      (hv : (Step.instruction s i).on { lane := l.advanced, world := w } =
        (.ok (.effect (.assign id v report)), m)) :
      Does s i l w ((l.holdings w).set id (i.assigned v))
  | allocates {id : Id} {pointee : Ty} (hop : i.op = .alloca) (hid : i.result = some id)
      (hty : i.ty.pointee? = some pointee) :
      Does s i l w ({ l.holdings w with own := l.memory.allocate id pointee false }.set id
        (.zeroed (i.resultName id) pointee))
  | loads {id src : Id} {q : Pointer} {bytes : Bytes} (hop : i.op = .load ∨ i.op = .loadAtomic)
      (hid : i.result = some id) (hsrc : i.argId 0 = .ok src) (hq : l.resolve w.memory src = .ok q)
      (hread : (l.holdings w).read q = .ok bytes) :
      Does s i l w ((l.holdings w).set id ((Variable.zeroed (i.resultName id) i.ty).ofBytes bytes))
  | derives {id : Id} {q : Pointer} {bytes : Bytes} (hop : i.op = .getElementPtr)
      (hid : i.result = some id) (hq : l.derive w.memory i = .ok q)
      (hread : (l.holdings w).read q = .ok bytes) :
      Does s i l w ({ l.holdings w with own := l.memory.addPointer id q }.set id
        ((Variable.zeroed (i.resultName id) q.pointee).ofBytes bytes))
  | stores {src : Id} {q : Pointer} {v : Variable} {d d' : Holdings}
      (hop : i.op = .store ∨ i.op = .storeAtomic) (hsrc : i.argId 0 = .ok src)
      (hq : l.resolve w.memory src = .ok q) (hv : l.arg i 1 = .ok v)
      (hwrites : (l.holdings w).Writes q v.toBytes d) (hd : d.Refreshes src q d') : Does s i l w d'
  | updates {src : Id} {q : Pointer} {operand : Variable} {bytes : Bytes} {bits : UInt64}
      {d d' : Holdings} (hop : i.op.isAtomicUpdate) (hsrc : i.argId 0 = .ok src)
      (hq : l.resolve w.memory src = .ok q) (hoperand : l.arg i 1 = .ok operand)
      (hread : (l.holdings w).read q = .ok bytes)
      (hbits : i.op.combine? operand.elem.bits ((Step.found q bytes).get 0) (operand.get 0) = some bits)
      (hwrites : (l.holdings w).Writes q ((Step.found q bytes).set 0 bits).toBytes d)
      (hd : d.Refreshes src q d') :
      Does s i l w (i.result.elim d' fun id =>
        d'.set id ((Step.found q bytes).withName (i.resultName id)))

namespace Step

variable {s : Setting} {i : Instr} {l : Lane} {w : World} {m m' : Machine} {e : Effect}

theorem selectPath_advanced (l : Lane) (i : Instr) (offset : Int) (ty : Ty) (index n : Nat) :
    l.advanced.selectPath i offset ty index n = l.selectPath i offset ty index n := by
  induction n generalizing offset ty index with
  | zero => rfl
  | succ n ih =>
      simp only [Lane.selectPath, ih]
      rfl

/-- To instructions on memory, it does not matter that the lane has moved past them. -/
theorem derive_advanced (l : Lane) (shared : Memory) (i : Instr) :
    l.advanced.derive shared i = l.derive shared i := by
  simp only [Lane.derive, selectPath_advanced]
  rfl

theorem compute_of_usesMemory (hi : i.usesMemory) : (compute s i).on m = (memory i).on m := by
  unfold Instr.usesMemory Instr.writesMemory at hi
  unfold compute
  cases hop : i.op <;> simp_all <;> rfl

theorem on_instruction_of_usesMemory {o : Outcome} (hi : i.usesMemory)
    (hok : (Step.instruction s i).on m = (.ok o, m')) :
    ∃ e, o = .effect e ∧ (memory i).on m = (.ok e, m') ∧ ¬ i.isFlushing := by
  have hterminator : ¬ i.isTerminator := by
    unfold Instr.usesMemory Instr.writesMemory at hi
    unfold Instr.isTerminator
    cases hop : i.op <;> simp_all [Opcode.isTerminator]
  have hflush : ¬ i.isFlushing := by
    unfold Instr.usesMemory Instr.writesMemory at hi
    unfold Instr.isFlushing
    cases hop : i.op <;> simp_all
  unfold Step.instruction at hok
  rw [if_neg hterminator] at hok
  obtain ⟨e, m₁, he, h₁⟩ := ok_of_on_bind hok
  cases h₁
  exact ⟨e, rfl, compute_of_usesMemory (s := s) hi ▸ he, hflush⟩

theorem holdings_of_value {a : FunctionAnalysis} {id : Id} {v : Variable} (hi : ¬ i.isFlushing)
    (h : (conclude a i (.effect (.value id v))).on m = (.ok (), m')) :
    m'.lane.holdings m'.world = (m.lane.holdings m.world).set id v := by
  rcases holdings_of_conclude h with ⟨_, _, _, heq, hset⟩ | ⟨hne, -⟩
  · cases heq
    rw [hset, Instr.assigned, if_neg hi]
  · exact absurd rfl (hne id v true)

/-- The instructions on memory. -/
theorem memory_cases (hi : i.usesMemory) :
    (i.op = .alloca ∧ memory i = alloca i) ∨
    ((i.op = .load ∨ i.op = .loadAtomic) ∧ memory i = load i) ∨
    ((i.op = .store ∨ i.op = .storeAtomic) ∧ memory i = storeArg i) ∨
    (i.op = .getElementPtr ∧ memory i = elementPointer i) ∨
    (i.op.isAtomicUpdate ∧ memory i = atomic i) := by
  unfold Instr.usesMemory Instr.writesMemory at hi
  unfold memory Opcode.isAtomicUpdate
  cases hop : i.op <;> simp_all

/-- What an instruction on memory makes of what a lane holds, when its outcome has been carried out. -/
theorem does_of_memory {a : FunctionAnalysis} (hi : i.usesMemory) (hflush : ¬ i.isFlushing)
    (h : (memory i).on { lane := l.advanced, world := w } = (.ok e, m))
    (hend : (conclude a i (.effect e)).on m = (.ok (), m')) :
    l.Does s i w (m'.lane.holdings m'.world) := by
  rcases memory_cases hi with ⟨hop, hmemory⟩ | ⟨hop, hmemory⟩ |
    ⟨hop, hmemory⟩ | ⟨hop, hmemory⟩ | ⟨hop, hmemory⟩
  all_goals rw [hmemory] at h
  · obtain ⟨id, pointee, hid, hty, rfl, rfl⟩ := alloca_ok h
    rw [holdings_of_value hflush hend]
    exact .allocates hop hid hty
  · obtain ⟨id, src, q, bytes, hid, hsrc, hq, hread, rfl, rfl⟩ := load_ok h
    rw [holdings_of_value hflush hend]
    exact .loads hop hid hsrc hq hread
  · obtain ⟨src, q, v, target, after, hsrc, hq, hv, hstored, rfl⟩ := storeArg_ok h
    obtain ⟨d, hwrites, hd, -⟩ := refreshes_of_store hstored
    rw [← holdings_of_value hflush hend] at hd
    exact .stores hop hsrc hq hv hwrites hd
  · obtain ⟨id, q, bytes, hid, hq, hread, rfl, rfl⟩ := elementPointer_ok h
    rw [holdings_of_value hflush hend]
    exact .derives hop hid (derive_advanced l w.memory i ▸ hq) hread
  · obtain ⟨src, q, operand, bytes, bits, target, after, m₁, hsrc, hq, hoperand, hread, hbits, hstored,
      hresult⟩ := atomic_ok h
    obtain ⟨d, hwrites, hd, hvalue⟩ := refreshes_of_store hstored
    have hdoes := Lane.Does.updates (s := s) (l := l) (w := w) hop hsrc hq hoperand hread hbits hwrites hd
    rcases hresult with ⟨hnone, rfl, rfl⟩ | ⟨id, hid, hover, rfl⟩
    · rw [holdings_of_value hflush hend]
      rwa [hnone] at hdoes
    · rw [holdings_of_value hflush hend, holdings_of_overwrite hvalue hover]
      rwa [hid] at hdoes

end Step

/-- A lane has as many cells as it was made with. -/
theorem Lane.size_of_step {l : Lane} {s : Setting} {w : World} {state : StepState}
    (hl : ¬ l.isFinished) (hok : (l.step s w).result = .ok state) :
    (l.step s w).lane.cells.size = l.cells.size := by
  obtain ⟨a, i, l₁, -, hframe, hconcludes⟩ := step_cases hl hok
  have hsize : l₁.cells.size = l.advanced.cells.size := size_cells_of_frame hframe
  have hretire : ∀ (l : Lane) (keep : Option Id), (l.retire a keep).cells.size = l.cells.size :=
    fun _ _ => Array.size_mapIdx
  refine Eq.trans ?_ hsize
  generalize (l.step s w).lane = l' at hconcludes ⊢
  cases hconcludes with
  | proceed _ => exact hretire ..
  | assign id v _ _ => rw [bringIntoScope, Array.size_modify, size_assign, hretire]
  | jump b l' _ _ hl =>
      obtain ⟨_, -, rfl⟩ := jumpTo_ok hl
      exact hretire ..
  | leave _ => rfl
  | kill => rfl

/-- A step that succeeds does what its instruction asks to what the lane holds. -/
theorem Lane.does_of_step {l : Lane} {s : Setting} {w : World} {state : StepState}
    (hl : ¬ l.isFinished) (hok : (l.step s w).result = .ok state) :
    ∃ a i, l.nextInstr s.program s.analyses = .ok (a, i) ∧
      l.Does s i w ((l.step s w).lane.holdings (l.step s w).world) := by
  obtain ⟨m, hm, hstep, -⟩ := execute_of_step hl hok
  obtain ⟨a, i, o, m₁, hnext, ho, hend⟩ := Step.execute_iff.1 hm
  refine ⟨a, i, hnext, ?_⟩
  rw [hstep]
  by_cases hi : i.usesMemory
  · obtain ⟨e, rfl, he, hflush⟩ := Step.on_instruction_of_usesMemory hi ho
    exact Step.does_of_memory hi hflush he hend
  · obtain ⟨hbeside, hassigns⟩ := Step.Beside.of_instruction hi ho
    have hsame : m₁.lane.holdings m₁.world = l.holdings w := by
      rw [Lane.holdings, hbeside.lane, hbeside.memory]
      rfl
    rcases Step.holdings_of_conclude hend with ⟨id, v, report, rfl, hset⟩ | ⟨-, hrest⟩
    · rw [hset, hsame]
      exact .gives hi (hassigns rfl) ho
    · rw [hrest, hsame]
      exact .rests hi

end Lockstep
