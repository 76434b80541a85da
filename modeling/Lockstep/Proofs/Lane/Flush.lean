import Lockstep.Proofs.Exec.Contents
import Lockstep.Proofs.Lane.Assigns
import Mathlib.Data.Nat.Bitwise

set_option autoImplicit false

/-! # Subnormal results

An instruction that flushes stores zeros in the place of subnormal single-precision numbers, and what others give is
stored as it is (`Move.stores`). An identifier is the result of one instruction; so one that a flushing instruction
defines, and that does not stand for memory, never has a value with a subnormal component, whether the steps of its
lane succeed or not (`Lane.Flushed.step`). -/

namespace Lockstep

/-! ## Numbers -/

namespace FloatFormat

theorem and_ones_shiftLeft (n k s : Nat) : n &&& (2 ^ k - 1) <<< s = (n >>> s % 2 ^ k) <<< s := by
  refine Nat.eq_of_testBit_eq fun j => ?_
  simp only [Nat.testBit_and, Nat.testBit_shiftLeft, Nat.testBit_two_pow_sub_one, Nat.testBit_mod_two_pow,
    Nat.testBit_shiftRight]
  by_cases hj : s ≤ j
  · rw [Nat.add_sub_of_le hj]
    simp only [ge_iff_le, hj, decide_true, Bool.true_and, Bool.and_comm]
  · simp [hj]

/-- The fields of a single-precision number by masks. -/
theorem isSubnormal_single (bits : UInt64) :
    single.isSubnormal bits ↔ bits &&& 0x7f800000 = 0 ∧ bits &&& 0x007fffff ≠ 0 := by
  have hexp : bits &&& 0x7f800000 = 0 ↔ single.expField bits = 0 := by
    rw [← UInt64.toNat_inj, UInt64.toNat_and]
    show bits.toNat &&& (2 ^ 8 - 1) <<< 23 = 0 ↔ bits.toNat >>> 23 % 2 ^ 8 = 0
    rw [and_ones_shiftLeft, Nat.shiftLeft_eq_zero_iff]
  have hfrac : bits &&& 0x007fffff = 0 ↔ single.fracField bits = 0 := by
    rw [← UInt64.toNat_inj, UInt64.toNat_and]
    show bits.toNat &&& (2 ^ 23 - 1) = 0 ↔ bits.toNat % 2 ^ 23 = 0
    rw [Nat.and_two_pow_sub_one_eq_mod]
  rw [isSubnormal, Bool.and_eq_true, beq_iff_eq, bne_iff_ne, hexp, Ne, Ne, hfrac]

/-- The zero with the sign of a number. -/
def zeroOf (f : FloatFormat) (bits : UInt64) : UInt64 := if f.signBit bits then 1 <<< (f.width - 1).toUInt64 else 0

theorem zeroOf_single (bits : UInt64) : single.zeroOf bits = bits &&& 0x80000000 := by
  rw [← UInt64.toNat_inj, UInt64.toNat_and]
  show _ = bits.toNat &&& 2 ^ 31
  rw [Nat.and_two_pow, zeroOf]
  show UInt64.toNat (if bits.toNat.testBit 31 then _ else _) = _
  cases bits.toNat.testBit 31 <;> rfl

theorem not_isSubnormal_zeroOf (bits : UInt64) : ¬ single.isSubnormal (single.zeroOf bits) := by
  unfold zeroOf
  split <;> decide

end FloatFormat

namespace Variable

/-- No component of a single-precision value is subnormal. -/
def IsFlushed (v : Variable) : Prop :=
  v.elem = .float → ∀ c < v.compCount, ¬ FloatFormat.single.isSubnormal (v.get c)

/-- A value is another one where the components that are subnormal in single precision are zeros of their signs, and
    all else is the same. -/
structure IsFlushOf (w v : Variable) : Prop where
  rest : w = { v with value := w.value }
  comp : ∀ c, w.get c =
    if v.elem = .float ∧ c < v.compCount ∧ FloatFormat.single.isSubnormal (v.get c) then
      FloatFormat.single.zeroOf (v.get c)
    else v.get c

theorem isFlushOf_flushed (v : Variable) : v.flushed.IsFlushOf v := by
  unfold flushed
  by_cases helem : v.elem = .float
  · rw [if_pos helem]
    refine ⟨rfl, fun c => ?_⟩
    by_cases hc : c < v.compCount
    · rw [get_fill v _ hc]
      by_cases hc16 : c < 16
      · simp only [if_pos hc16, ElemType.flush, FloatFormat.isSubnormal_single, FloatFormat.zeroOf_single, helem, hc,
          true_and]
      · rw [if_neg hc16, v.get_of_ge (Nat.le_of_not_lt hc16), if_neg fun h => absurd h.2.2 (by decide)]
    · rw [if_neg fun h => hc h.2.1]
      exact (Value.get_fill v.value v.compCount (fun c => v.elem.flush (v.get c)) c).trans (if_neg fun h => hc h.1)
  · rw [if_neg helem]
    exact ⟨by cases v; rfl, fun c => (if_neg fun h => helem h.1).symm⟩

theorem IsFlushOf.isFlushed {v w : Variable} (h : w.IsFlushOf v) : w.IsFlushed := by
  intro helem c hc
  rw [h.rest] at helem hc
  rw [h.comp]
  split
  · exact FloatFormat.not_isSubnormal_zeroOf _
  · next hno => exact fun hsub => hno ⟨helem, hc, hsub⟩

end Variable

/-! ## What a step stores -/

/-- A step that assigns what its instruction gives stores it with its subnormal components flushed if the instruction
    flushes, and else as it is. It is also stored as it is if it is not in single precision. -/
theorem Move.stores {t : Move} {i : Instr} {x : Id} {v : Variable} {report : Bool} (hrun : ¬ t.lane.isFinished)
    (hok : t.Succeeds) (hi : t.Executes i) (houtcome : t.outcome i = .ok (.effect (.assign x v report))) :
    ∃ w, t.stepped.lane.value? x = some w ∧ (i.isFlushing → w.IsFlushOf v) ∧
      (¬ i.isFlushing ∨ v.elem ≠ .float → w = v) := by
  obtain ⟨state, hok⟩ := hok
  obtain ⟨m, hm, hstep, -⟩ := Lane.execute_of_step hrun hok
  obtain ⟨a, j, o, m₁, hnext, ho, hend⟩ := Step.execute_iff.1 hm
  obtain rfl := hi.unique ⟨a, hnext⟩
  obtain rfl : o = .effect (.assign x v report) := Except.ok.inj ((congrArg Prod.fst ho).symm.trans houtcome)
  refine ⟨i.assigned v, ?_, fun hflush => ?_, fun hkeep => ?_⟩
  · rcases Step.holdings_of_conclude hend with ⟨_, _, _, heq, hheld⟩ | ⟨hno, -⟩
    · cases heq
      rw [Move.stepped, hstep]
      exact (congrFun (congrArg Holdings.values hheld) x).trans (Holdings.set_self ..)
    · exact absurd rfl (hno x v report)
  · rw [Instr.assigned, if_pos hflush]
    exact v.isFlushOf_flushed
  · rcases hkeep with hkeep | hkeep
    · exact if_neg hkeep
    · unfold Instr.assigned Variable.flushed
      rw [if_neg hkeep, ite_self]

/-! ## Identifiers that flushing instructions define -/

/-- An identifier is the result of an instruction that flushes. -/
def Program.Flushes (p : Program) (x : Id) : Prop := ∃ i, p.HasInstr i ∧ i.result = some x ∧ i.isFlushing

/-- A lane where the identifiers that flushing instructions define have no subnormal components. Those that stand for
    memory, which are all that pointers belong to, are left out. -/
structure Lane.Flushed (p : Program) (P : Id → Prop) (l : Lane) (shared : Memory) : Prop where
  size : l.cells.size = p.idCount
  own : l.memory.PointsIn P
  shared : shared.PointsIn P
  value : ∀ {x v}, p.Flushes x → ¬ P x → l.value? x = some v → v.IsFlushed

/-- A machine with such a lane. -/
def Machine.Flushed (p : Program) (P : Id → Prop) (m : Machine) : Prop :=
  m.lane.Flushed p P m.world.memory

variable {p : Program} {P : Id → Prop} {l l' : Lane} {shared memory : Memory} {x id : Id} {v : Variable}
  {q : Pointer} {bytes : Bytes} {s : Setting} {i : Instr} {a : FunctionAnalysis}

theorem Memory.PointsIn.write (h : memory.PointsIn P) {memory' : Memory} (hok : memory.write q bytes = .ok memory') :
    memory'.PointsIn P := by
  intro x q' hq
  rw [pointer?, (write_ok hok).1] at hq
  exact h hq

theorem Memory.PointsIn.insert (h : memory.PointsIn P) {memory' : Memory} (hid : P id) (hbase : P q.base)
    (hm : ∀ x, memory'.pointer? x = if x = id then some q else memory.pointer? x) : memory'.PointsIn P := by
  intro x q' hq
  rw [hm] at hq
  split at hq
  · next heq =>
      cases hq
      exact ⟨heq ▸ hid, hbase⟩
  · exact h hq

namespace Lane

namespace Flushed

theorem congr (h : l.Flushed p P shared) (hsize : l'.cells.size = l.cells.size) (hmemory : l'.memory = l.memory)
    (hvalue : l'.value? = l.value?) : l'.Flushed p P shared :=
  ⟨hsize.trans h.size, hmemory ▸ h.own, h.shared, fun hx hno hv => h.value hx hno (hvalue ▸ hv)⟩

theorem withMemory (h : l.Flushed p P shared) (hmemory : memory.PointsIn P) :
    ({ l with memory } : Lane).Flushed p P shared :=
  ⟨h.size, hmemory, h.shared, h.value⟩

/-- An identifier may be assigned any value unless it is one that flushing instructions define. -/
theorem assign (h : l.Flushed p P shared) (hv : p.Flushes id → ¬ P id → v.IsFlushed) :
    (l.assign id v).Flushed p P shared := by
  refine ⟨(size_assign l id v).trans h.size, memory_assign l id v ▸ h.own, h.shared, fun hx hno hw => ?_⟩
  rcases value_cases_of_assign hw with ⟨rfl, rfl⟩ | hw
  · exact hv hx hno
  · exact h.value hx hno hw

end Flushed

end Lane

theorem Machine.Flushed.ofContents : Machine.OfContents (Machine.Flushed p P) := by
  intro m m' hm hsize hheld
  have hshared : m'.world.memory = m.world.memory := congrArg Holdings.shared hheld
  rw [Flushed, hshared]
  exact Lane.Flushed.congr hm hsize (congrArg Holdings.own hheld) (congrArg Holdings.values hheld)

/-! ## Instructions -/

namespace Step

theorem maintains_lane : Maintains (Machine.Flushed p P) (fun l => l.memory.PointsIn P) lane :=
  fun _ hm => ⟨hm, fun _ h => ok_inj h ▸ hm.own⟩

theorem maintains_shared : Maintains (Machine.Flushed p P) (fun memory => memory.PointsIn P) Step.shared :=
  fun _ hm => ⟨hm, fun _ h => ok_inj h ▸ hm.shared⟩

theorem maintains_pointerArg : Maintains (Machine.Flushed p P) (fun r => P r.1 ∧ P r.2.base) (pointerArg i) := by
  unfold pointerArg
  refine .bind (Q := fun _ => True) (.lift fun _ _ => trivial) fun id _ => .bind maintains_lane fun l hl => ?_
  refine .bind maintains_shared fun shared hshared => ?_
  exact .bind (.lift fun q hq => Lane.pointsIn_of_resolve hl hshared hq) fun q hq => .pure hq

theorem maintains_assigned : Maintains (Machine.Flushed p P) (fun _ => True) (assigned id) := by
  unfold assigned
  refine .bind maintains_lane fun l _ => ?_
  split
  · exact .pure trivial
  · exact .throw _

theorem maintains_readThrough : Maintains (Machine.Flushed p P) (fun _ => True) (readThrough q) :=
  .bind maintains_lane fun _ _ => .bind maintains_shared fun _ _ => .lift fun _ _ => trivial

theorem maintains_writeThrough : Maintains (Machine.Flushed p P) (fun _ => True) (writeThrough q bytes) := by
  have hwrite : ∀ {memory : Memory}, memory.PointsIn P →
      Yields (fun m : Memory => m.PointsIn P) (memory.write q bytes) := fun h _ hok => h.write hok
  unfold writeThrough
  refine .bind maintains_lane fun l _ => .ite (fun _ => ?_) fun _ => ?_
  · refine .bind maintains_lane fun l hl => .bind (.lift (hwrite hl)) fun memory hmemory => ?_
    exact fun _ hm => ⟨Lane.Flushed.withMemory hm hmemory, fun _ _ => trivial⟩
  · refine .bind maintains_shared fun shared hshared => .bind (.lift (hwrite hshared)) fun memory hmemory => ?_
    exact fun _ hm => ⟨⟨hm.size, hm.own, hmemory, hm.value⟩, fun _ _ => trivial⟩

theorem maintains_overwrite (hid : P id) : Maintains (Machine.Flushed p P) (fun _ => True) (overwrite id v) := by
  unfold overwrite
  refine .bind maintains_lane fun l _ => .ite (fun _ => ?_) fun _ => .pure trivial
  refine .bind (Q := fun _ => True) (fun _ hm => ⟨hm, fun _ _ => trivial⟩) fun _ _ _ hm => ?_
  exact ⟨Lane.Flushed.assign hm fun _ hno => absurd hid hno, fun _ _ => trivial⟩

theorem maintains_store (hid : P id) (hbase : P q.base) :
    Maintains (Machine.Flushed p P) (fun r => P r.1) (store id q bytes) := by
  unfold store
  refine .bind maintains_writeThrough fun _ _ => .bind maintains_lane fun l _ => .bind maintains_shared fun _ _ => ?_
  refine .bind maintains_assigned fun before _ => ?_
  refine .bind (Q := fun _ => True) (.lift fun _ _ => trivial) fun after _ => ?_
  refine .ite (fun _ => .pure hbase) fun _ => .bind (maintains_overwrite hbase) fun _ _ => ?_
  exact .bind maintains_assigned fun v _ => .bind maintains_readThrough fun _ _ => .pure hid

theorem maintains_storeArg : Maintains (Machine.Flushed p P) (fun _ => True) (storeArg i) := by
  unfold storeArg
  refine .bind maintains_pointerArg fun ⟨src, q⟩ hq => ?_
  refine .bind (Q := fun _ => True) (.bind maintains_lane fun _ _ => .lift fun _ _ => trivial) fun v _ => ?_
  exact .bind (maintains_store hq.1 hq.2) fun _ _ => .pure trivial

theorem maintains_load : Maintains (Machine.Flushed p P) (fun _ => True) (load i) := by
  unfold load
  refine .bind (Q := fun _ => True) (.lift fun _ _ => trivial) fun ⟨id, result⟩ _ => ?_
  exact .bind maintains_pointerArg fun _ _ => .bind maintains_readThrough fun _ _ => .pure trivial

theorem maintains_alloca (hP : ∀ x, i.result = some x → P x) :
    Maintains (Machine.Flushed p P) (fun _ => True) (alloca i) := by
  have hallocate : ∀ {memory : Memory} {id : Id}, memory.PointsIn P → i.result = some id →
      Yields (fun r : Variable × Memory => r.2.PointsIn P) (memory.allocateFor i.ty id false (i.resultName id)) := by
    intro memory id hmemory hid r hr
    obtain ⟨pointee, -, rfl⟩ := Memory.allocateFor_ok hr
    exact Memory.PointsIn.insert (q := ⟨id, 0, pointee.byteSize, pointee⟩) hmemory (hP id hid) (hP id hid) fun x =>
      Memory.pointer?_allocate ..
  unfold alloca
  refine .bind (.lift Instr.yields_resultId) fun id hid => .bind maintains_lane fun l hl => ?_
  refine .bind (.lift (hallocate hl hid)) fun ⟨v, memory⟩ hmemory => ?_
  refine .bind (Q := fun _ => True) ?_ fun _ _ => .pure trivial
  exact fun _ hm => ⟨Lane.Flushed.withMemory hm hmemory, fun _ _ => trivial⟩

theorem maintains_elementPointer (hP : ∀ x, i.result = some x → P x) :
    Maintains (Machine.Flushed p P) (fun _ => True) (elementPointer i) := by
  unfold elementPointer
  refine .bind (.lift Instr.yields_resultId) fun id hid => .bind maintains_lane fun l hl => ?_
  refine .bind maintains_shared fun shared hshared => ?_
  refine .bind (Q := fun q => P q.base) (.lift fun q hq => ?_) fun q hq => .bind maintains_readThrough fun _ _ => ?_
  · obtain ⟨src, q₀, -, hq₀, hbase⟩ := Lane.yields_derive q hq
    exact hbase ▸ (Lane.pointsIn_of_resolve hl hshared hq₀).2
  · refine .bind (Q := fun _ => True) (fun m hm => ?_) fun _ _ => .pure trivial
    -- the pointer is added to what the lane has then
    have hadded : (m.lane.memory.addPointer id q).PointsIn P :=
      Memory.PointsIn.insert hm.own (hP id hid) hq fun x => Memory.pointer?_addPointer ..
    exact ⟨Lane.Flushed.withMemory hm hadded, fun _ _ => trivial⟩

theorem maintains_atomic : Maintains (Machine.Flushed p P) (fun _ => True) (atomic i) := by
  unfold atomic
  refine .bind maintains_pointerArg fun ⟨src, q⟩ hq => ?_
  refine .bind (Q := fun _ => True) (.bind maintains_lane fun _ _ => .lift fun _ _ => trivial) fun operand _ => ?_
  refine .bind maintains_readThrough fun _ _ => ?_
  dsimp only
  split
  · exact .throw _
  · refine .bind (maintains_store hq.1 hq.2) fun ⟨target, v⟩ htarget => ?_
    dsimp only
    split
    · exact .pure trivial
    · exact .bind (maintains_overwrite htarget) fun _ _ => .pure trivial

theorem maintains_memory (hP : i.op = .alloca ∨ i.op = .getElementPtr → ∀ x, i.result = some x → P x) :
    Maintains (Machine.Flushed p P) (fun _ => True) (Step.memory i) := by
  unfold Step.memory
  split
  · next hop => exact maintains_alloca (hP (.inl hop))
  · exact maintains_load
  · exact maintains_load
  · exact maintains_storeArg
  · exact maintains_storeArg
  · next hop => exact maintains_elementPointer (hP (.inr hop))
  · exact maintains_atomic

/-- What an instruction asks to be assigned is its result, unless it stands for memory or is the output. -/
theorem maintains_instruction (hP : i.op = .alloca ∨ i.op = .getElementPtr → ∀ x, i.result = some x → P x) :
    Maintains (Machine.Flushed p P)
      (fun o => ∀ x v report, o = .effect (.assign x v report) → i.result = some x ∨ P x ∨ x = ⟨p.idCount + 1⟩)
      (instruction s i) := by
  refine fun m hm => ⟨(Machine.Flushed.ofContents.instruction (maintains_memory hP) m hm).1, fun o ho => ?_⟩
  rintro x v report rfl
  rcases assigned_of_instruction (Prod.ext ho rfl) with hid | ⟨q, -, -, hq⟩ | houtput
  · exact .inl hid
  · exact .inr (.inl (Lane.pointsIn_of_resolve hm.own hm.shared hq).1)
  · rw [Lane.outputId, hm.size] at houtput
    exact .inr (.inr houtput)

end Step

/-! ## Steps -/

/-- Whether its step succeeds or not, a lane stays flushed: the result of an instruction that flushes is assigned by no
    other one. -/
theorem Lane.Flushed.step {w : World} (hp : p.UniqueIds) (hs : s.program = p)
    (hP : ∀ {i x}, p.HasInstr i → i.op = .alloca ∨ i.op = .getElementPtr → i.result = some x → P x)
    (h : l.Flushed p P w.memory) : (l.step s w).lane.Flushed p P (l.step s w).world.memory := by
  have hexecute : (Step.execute s).Maintains (Machine.Flushed p P) fun _ => True := by
    subst hs
    refine Machine.Flushed.ofContents.execute
      (fun i hi => Step.maintains_instruction fun hop x hid => hP hi hop hid) fun i x v report hi ho m hm => ?_
    refine Lane.Flushed.assign hm fun ⟨j, hj, hid, hflush⟩ hno => ?_
    rcases ho x v report rfl with hid' | hpoints | rfl
    · obtain rfl := hp.eq_of_result hj hi hid hid'
      rw [Instr.assigned, if_pos hflush]
      exact v.isFlushOf_flushed.isFlushed
    · exact absurd hpoints hno
    · exact absurd rfl (hp.ne_reserved (.inl (hj.isResult hid))).2
  exact hexecute.step (J := fun l w => l.Flushed p P w.memory) h

end Lockstep
