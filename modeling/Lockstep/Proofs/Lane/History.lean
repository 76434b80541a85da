import Lockstep.Host.Unbound
import Lockstep.Proofs.Lane.Holdings
import Lockstep.Proofs.Session.Rounds
import Lockstep.Proofs.Shape

set_option autoImplicit false

/-! # A lane's memory is a flat byte store

Each byte of a lane's own allocations is the one that was last written there since the allocation was
made, or zero (`Lane.Recorded.describes`), through whatever pointers it was written. So a load gives
what the history of accesses says of its range, and what was stored in a range is loaded from it
(`Lane.memory_is_flat`). -/

namespace Lockstep

/-! ## Histories -/

/-- A change of a memory: an allocation, or bytes that are written from an offset on. -/
inductive Access
  | allocate (base : Id)
  | write (base : Id) (offset : Nat) (bytes : Bytes)

/-- Changes of a memory, the latest one first. -/
abbrev History := List Access

/-- A change concerns a position of an allocation. -/
def Access.Touches (base : Id) (k : Nat) : Access → Prop
  | .allocate base' => base' = base
  | .write base' offset bytes => base' = base ∧ offset ≤ k ∧ k < offset + bytes.length

instance (base : Id) (k : Nat) (x : Access) : Decidable (x.Touches base k) := by
  cases x <;> unfold Access.Touches <;> infer_instance

/-- What a change that concerns a position leaves there. -/
def Access.byteAt (k : Nat) : Access → UInt8
  | .allocate _ => 0
  | .write _ offset bytes => bytes[k - offset]?.getD 0

namespace History

/-- The byte that the last change of a position has left there: what was written last, or zero if the
    allocation has been made after that. -/
def byteAt : History → Id → Nat → UInt8
  | [], _, _ => 0
  | x :: h, base, k => if x.Touches base k then x.byteAt k else byteAt h base k

/-- The bytes in the range of a pointer. -/
def bytesAt (h : History) (q : Pointer) : Bytes :=
  (List.range q.size).map fun k => h.byteAt q.base (q.offset + k)

/-- Each byte of each allocation is the one that was last left there. -/
def Describes (h : History) (m : Memory) : Prop :=
  ∀ base a, m.allocation? base = some a →
    ∀ k, k < a.bytes.length → a.bytes[k]? = some (h.byteAt base k)

variable {h newer older : History} {m m' : Memory} {q : Pointer} {bytes : Bytes} {base : Id} {k : Nat}

/-- Later changes of other positions do not count. -/
theorem byteAt_append (hnewer : ∀ x ∈ newer, ¬ x.Touches base k) :
    byteAt (newer ++ h) base k = h.byteAt base k := by
  induction newer with
  | nil => rfl
  | cons x newer ih =>
      rw [List.cons_append, byteAt, if_neg (hnewer x List.mem_cons_self)]
      exact ih fun y hy => hnewer y (List.mem_cons_of_mem _ hy)

theorem length_bytesAt (h : History) (q : Pointer) : (h.bytesAt q).length = q.size := by
  simp [bytesAt]

theorem getElem?_bytesAt (h : History) (hk : k < q.size) :
    (h.bytesAt q)[k]? = some (h.byteAt q.base (q.offset + k)) := by
  simp [bytesAt, hk]

/-- A range that was written as a whole, and has been left alone since, has the bytes that were written. -/
theorem bytesAt_append_write (hsize : bytes.length = q.size)
    (hnewer : ∀ x ∈ newer, ∀ k, k < q.size → ¬ x.Touches q.base (q.offset + k)) :
    bytesAt (newer ++ .write q.base q.offset bytes :: older) q = bytes := by
  refine List.ext_getElem? fun k => ?_
  by_cases hk : k < q.size
  · have htouches : Access.Touches q.base (q.offset + k) (.write q.base q.offset bytes) :=
      ⟨rfl, Nat.le_add_right .., Nat.add_lt_add_left (hsize ▸ hk) _⟩
    rw [getElem?_bytesAt _ hk, byteAt_append fun x hx => hnewer x hx k hk, byteAt, if_pos htouches,
      Access.byteAt, Nat.add_sub_cancel_left, List.getElem?_eq_getElem (hsize ▸ hk)]
    rfl
  · rw [List.getElem?_eq_none (by rw [length_bytesAt]; omega), List.getElem?_eq_none (by omega)]

theorem Describes.allocate (hm : h.Describes m) (id : Id) (pointee : Ty) :
    Describes (.allocate id :: h) (m.allocate id pointee false) := by
  intro base a ha k hk
  rw [Memory.allocation?_allocate] at ha
  rw [byteAt]
  split at ha
  · next heq =>
      cases ha
      rw [List.length_replicate] at hk
      rw [if_pos (show Access.Touches base k (.allocate id) from heq.symm), List.getElem?_replicate, if_pos hk]
      rfl
  · next hne =>
      rw [if_neg (show ¬ Access.Touches base k (.allocate id) from Ne.symm hne)]
      exact hm base a ha k hk

theorem Describes.write (hm : h.Describes m) (hok : m.write q bytes = .ok m') :
    Describes (.write q.base q.offset bytes :: h) m' := by
  obtain ⟨-, a₀, new, ha₀, hnew, hself⟩ := Memory.splice_of_write hok
  intro base a ha k hk
  rw [byteAt]
  by_cases htouches : Access.Touches base k (.write q.base q.offset bytes)
  · obtain ⟨rfl, hin⟩ := id htouches
    cases hself.symm.trans ha
    rw [if_pos htouches, Bytes.getElem?_splice? hnew, if_pos hin, Access.byteAt,
      List.getElem?_eq_getElem (by omega)]
    rfl
  · rw [if_neg htouches]
    by_cases hbase : base = q.base
    · subst hbase
      cases hself.symm.trans ha
      rw [Bytes.length_splice? hnew] at hk
      rw [Bytes.getElem?_splice? hnew, if_neg fun hin => htouches ⟨rfl, hin⟩]
      exact hm q.base a₀ ha₀ k hk
    · exact hm base a ((Memory.write_ok hok).2.2 base hbase ▸ ha) k hk

/-- What is read through a pointer are the bytes that were last left in its range. -/
theorem Describes.read (hm : h.Describes m) (hsize : q.size < UInt64.size)
    (hok : m.read q = .ok bytes) : bytes = h.bytesAt q := by
  obtain ⟨a, ha, hslice⟩ := Memory.read_ok hok
  unfold Bytes.slice? at hslice
  split at hslice
  · next hrange =>
      cases hslice
      have hstop := q.stop_eq hsize hrange.1
      rw [hstop] at hrange ⊢
      refine List.ext_getElem? fun k => ?_
      rw [Nat.add_sub_cancel_left]
      by_cases hk : k < q.size
      · rw [List.getElem?_take_of_lt hk, List.getElem?_drop, hm q.base a ha _ (by omega), getElem?_bytesAt _ hk]
      · rw [List.getElem?_take_eq_none (by omega), List.getElem?_eq_none (by rw [length_bytesAt]; omega)]
  · cases hslice

end History

/-! ## Recorded runs -/

namespace Lane

variable {p : Program} {b : Bindings} {as : Analyses} {live : Array Bool} {l l' : Lane} {c : History}
  {s : Setting} {w : World} {i : Instr} {a : FunctionAnalysis} {state : StepState}

/-- The change of a lane's own memory when bytes are written through a pointer: none if the pointer
    leads elsewhere. -/
def writing (l : Lane) (q : Pointer) (bytes : Bytes) : History :=
  if l.memory.hasAllocation q.base then [.write q.base q.offset bytes] else []

/-- The changes that an instruction makes to the lane's own memory. -/
inductive Accesses (l : Lane) (w : World) (i : Instr) : History → Prop
  | aside (halloca : i.op ≠ .alloca) (hwrites : ¬ i.writesMemory) : Accesses l w i []
  | allocates {id : Id} (hop : i.op = .alloca) (hid : i.result = some id) :
      Accesses l w i [.allocate id]
  | stores {src : Id} {q : Pointer} {v : Variable} (hop : i.op = .store ∨ i.op = .storeAtomic)
      (hsrc : i.argId 0 = .ok src) (hq : l.resolve w.memory src = .ok q) (hv : l.arg i 1 = .ok v) :
      Accesses l w i (l.writing q v.toBytes)
  | updates {src : Id} {q : Pointer} {operand : Variable} {bytes : Bytes} {bits : UInt64}
      (hop : i.op.isAtomicUpdate) (hsrc : i.argId 0 = .ok src) (hq : l.resolve w.memory src = .ok q)
      (hoperand : l.arg i 1 = .ok operand) (hread : (l.holdings w).read q = .ok bytes)
      (hbits : i.op.combine? operand.elem.bits ((Step.found q bytes).get 0) (operand.get 0) =
        some bits) :
      Accesses l w i (l.writing q ((Step.found q bytes).set 0 bits).toBytes)

/-- The states of a lane between two steps, as in a run, with the changes of its own memory. -/
inductive Recorded (p : Program) (b : Bindings) (as : Analyses) (live : Array Bool) :
    History → Lane → Prop
  | entered {index : Nat} {init : LaneInit} {l : Lane}
      (hl : (Lane.new index p init).enter p b as live = (.ok (), l)) : Recorded p b as live [] l
  | stepped {h changes : History} {l : Lane} {s : Setting} {w : World} {a : FunctionAnalysis} {i : Instr}
      {state : StepState} (hl : Recorded p b as live h l) (hp : s.program = p) (has : s.analyses = as)
      (hrun : ¬ l.isFinished) (hnext : l.nextInstr p as = .ok (a, i)) (hchanges : l.Accesses w i changes)
      (hok : (l.step s w).result = .ok state) : Recorded p b as live (changes ++ h) (l.step s w).lane
  | refreshed {h : History} {l l' : Lane} {memory : Memory} (hl : Recorded p b as live h l)
      (hok : l.refreshGlobals memory b.globals = (.ok (), l')) : Recorded p b as live h l'
  | skipped {h : History} {l : Lane} (hl : Recorded p b as live h l) :
      Recorded p b as live h (l.skipNops p)

/-- The history describes a memory, and the sizes of pointers are those of words. -/
structure Remembers (h : History) (m : Memory) : Prop where
  describes : h.Describes m
  size : ∀ {id q}, m.pointer? id = some q → q.size < UInt64.size

theorem Accesses.unique {c c' : History} (hc : l.Accesses w i c) (hc' : l.Accesses w i c') : c = c' := by
  -- an instruction is of one kind
  have hstore : ∀ {op}, i.op = op → op = .store ∨ op = .storeAtomic →
      i.writesMemory ∧ op ≠ .alloca ∧ ¬ op.isAtomicUpdate := by
    rintro op rfl hop
    unfold Instr.writesMemory
    rcases hop with hop | hop <;> rw [hop] <;> decide
  have hupdate : i.op.isAtomicUpdate → i.writesMemory ∧ i.op ≠ .alloca := by
    unfold Instr.writesMemory Opcode.isAtomicUpdate
    cases i.op <;> simp
  cases hc with
  | aside halloca hwrites =>
      cases hc' with
      | aside _ _ => rfl
      | allocates hop _ => exact absurd hop halloca
      | stores hop _ _ _ => exact absurd (hstore rfl hop).1 hwrites
      | updates hop _ _ _ _ _ => exact absurd (hupdate hop).1 hwrites
  | allocates hop hid =>
      cases hc' with
      | aside halloca _ => exact absurd hop halloca
      | allocates _ hid' =>
          cases hid.symm.trans hid'
          rfl
      | stores hop' _ _ _ => exact absurd hop (hstore rfl hop').2.1
      | updates hop' _ _ _ _ _ => exact absurd hop (hupdate hop').2
  | stores hop hsrc hq hv =>
      cases hc' with
      | aside _ hwrites => exact absurd (hstore rfl hop).1 hwrites
      | allocates hop' _ => exact absurd hop' (hstore rfl hop).2.1
      | stores _ hsrc' hq' hv' =>
          cases hsrc.symm.trans hsrc'
          cases hq.symm.trans hq'
          cases hv.symm.trans hv'
          rfl
      | updates hop' _ _ _ _ _ => exact absurd hop' (hstore rfl hop).2.2
  | updates hop hsrc hq hoperand hread hbits =>
      cases hc' with
      | aside _ hwrites => exact absurd (hupdate hop).1 hwrites
      | allocates hop' _ => exact absurd hop' (hupdate hop).2
      | stores hop' _ _ _ => exact absurd hop (hstore rfl hop').2.2
      | updates _ hsrc' hq' hoperand' hread' hbits' =>
          cases hsrc.symm.trans hsrc'
          cases hq.symm.trans hq'
          cases hoperand.symm.trans hoperand'
          cases hread.symm.trans hread'
          cases hbits.symm.trans hbits'
          rfl

theorem Remembers.writes {h : History} {q : Pointer} {bytes : Bytes} {d : Holdings} (hm : Remembers h l.memory)
    (hwrites : (l.holdings w).Writes q bytes d) : Remembers (l.writing q bytes ++ h) d.own := by
  refine ⟨?_, fun {id q'} hq' => hm.size (show l.memory.pointer? id = some q' from ?_)⟩
  · cases hwrites with
    | own hbase hok =>
        rw [writing, if_pos (show l.memory.hasAllocation q.base from hbase)]
        exact hm.describes.write hok
    | shared hbase _ =>
        rw [writing, if_neg (show ¬ l.memory.hasAllocation q.base from hbase)]
        exact hm.describes
  · rw [Memory.pointer?, hwrites.pointers_eq.1] at hq'
    exact hq'

theorem Remembers.allocate {h : History} {m : Memory} (hm : Remembers h m) (id : Id) (pointee : Ty) :
    Remembers (.allocate id :: h) (m.allocate id pointee false) := by
  refine ⟨hm.describes.allocate id pointee, fun {x q} hq => ?_⟩
  rw [Memory.pointer?_allocate] at hq
  split at hq
  · cases hq
    exact pointee.byteSize_lt
  · exact hm.size hq

theorem Remembers.addPointer {h : History} {m : Memory} {q : Pointer} (hm : Remembers h m) (id : Id)
    (hq : q.size < UInt64.size) : Remembers h (m.addPointer id q) := by
  refine ⟨hm.describes, fun {x q'} hq' => ?_⟩
  rw [Memory.pointer?_addPointer] at hq'
  split at hq'
  · cases hq'
    exact hq
  · exact hm.size hq'

/-- What an instruction makes of the lane's own memory is what its changes say. -/
theorem remembers_of_does {d : Holdings} (hd : l.Does s i w d) :
    ∃ changes, l.Accesses w i changes ∧
      ∀ h, Remembers h l.memory → Remembers (changes ++ h) d.own := by
  have haside : i.op ≠ .alloca → ¬ i.writesMemory → ∃ changes, l.Accesses w i changes ∧
      ∀ h, Remembers h l.memory → Remembers (changes ++ h) l.memory :=
    fun halloca hwrites => ⟨[], .aside halloca hwrites, fun _ hm => hm⟩
  have hbeside : ¬ i.usesMemory → i.op ≠ .alloca ∧ ¬ i.writesMemory := by
    intro hno
    refine ⟨fun hop => hno ?_, fun hwrites => hno (Instr.usesMemory_of_writesMemory hwrites)⟩
    rw [Instr.usesMemory, hop]
  cases hd with
  | rests hno => exact haside (hbeside hno).1 (hbeside hno).2
  | gives hno _ _ => exact haside (hbeside hno).1 (hbeside hno).2
  | loads hop _ _ _ _ =>
      refine haside ?_ ?_
      · rcases hop with hop | hop <;> rw [hop] <;> decide
      · unfold Instr.writesMemory
        rcases hop with hop | hop <;> rw [hop] <;> decide
  | @allocates id pointee hop hid hty =>
      exact ⟨_, .allocates hop hid, fun h hm => hm.allocate id pointee⟩
  | @derives id q bytes hop hid hq _ =>
      obtain ⟨_, _, _, _, _, ty, _, -, -, -, -, -, -, hplace⟩ := derive_ok hq
      obtain ⟨-, -, rfl⟩ := placeAt_ok hplace
      exact ⟨[], .aside (by rw [hop]; decide) (by rw [Instr.writesMemory, hop]; decide), fun h hm =>
        hm.addPointer id ty.byteSize_lt⟩
  | stores hop hsrc hq hv hwrites hd =>
      refine ⟨_, .stores hop hsrc hq hv, fun h hm => ?_⟩
      rw [hd.memory_eq.1]
      exact hm.writes hwrites
  | @updates src q operand bytes bits d₁ d' hop hsrc hq hoperand hread hbits hwrites hd =>
      refine ⟨_, .updates hop hsrc hq hoperand hread hbits, fun h hm => ?_⟩
      have hown : (i.result.elim d' fun id =>
          d'.set id ((Step.found q bytes).withName (i.resultName id))).own = d'.own := by
        cases i.result <;> rfl
      rw [hown, hd.memory_eq.1]
      exact hm.writes hwrites

/-- The history of a recorded run describes the lane's own memory. -/
theorem Recorded.remembers (h : l.Recorded p b as live c) : Remembers c l.memory := by
  induction h with
  | entered henter =>
      rw [(memory_of_enter henter).2]
      exact ⟨fun _ _ ha => (Option.some_ne_none _ (ha.symm.trans (Table.get?_empty _))).elim,
        fun hq => (Option.some_ne_none _ (hq.symm.trans (Table.get?_empty _))).elim⟩
  | stepped _ hp has hrun hnext hchanges hok ih =>
      obtain ⟨a', i', hnext', hd⟩ := does_of_step hrun hok
      rw [hp, has, hnext] at hnext'
      cases hnext'
      obtain ⟨changes', hchanges', hremembers⟩ := remembers_of_does hd
      obtain rfl := hchanges.unique hchanges'
      exact hremembers _ ih
  | @refreshed h l l' memory _ hok ih =>
      have hmemory := memory_refreshGlobals l memory b.globals
      rw [hok] at hmemory
      exact hmemory ▸ ih
  | skipped _ ih => rwa [memory_skipNops]

/-- Every run can be recorded. -/
theorem Run.recorded (h : l.Run p b as live) : ∃ c, l.Recorded p b as live c := by
  induction h with
  | entered henter => exact ⟨[], .entered henter⟩
  | @stepped l s w state _ hp has hok ih =>
      obtain ⟨c, hc⟩ := ih
      by_cases hfin : l.isFinished
      · exact ⟨c, by rwa [step_of_isFinished hfin]⟩
      · obtain ⟨a, i, hnext, hd⟩ := does_of_step hfin hok
        obtain ⟨changes, hchanges, -⟩ := remembers_of_does hd
        exact ⟨_, .stepped hc hp has hfin (hp ▸ has ▸ hnext) hchanges hok⟩
  | refreshed _ hok ih =>
      obtain ⟨c, hc⟩ := ih
      exact ⟨c, .refreshed hc hok⟩
  | skipped _ ih =>
      obtain ⟨c, hc⟩ := ih
      exact ⟨c, .skipped hc⟩

/-- A load reads the bytes that its pointer addresses. -/
theorem value_of_load {id src : Id} {q : Pointer} (hrun : ¬ l.isFinished)
    (hok : (l.step s w).result = .ok state) (hnext : l.nextInstr s.program s.analyses = .ok (a, i))
    (hop : i.op = .load ∨ i.op = .loadAtomic) (hid : i.result = some id) (hsrc : i.argId 0 = .ok src)
    (hq : l.resolve w.memory src = .ok q) :
    ∃ bytes, (l.holdings w).read q = .ok bytes ∧
      (l.step s w).lane.value? id = some ((Variable.zeroed (i.resultName id) i.ty).ofBytes bytes) := by
  obtain ⟨a', i', hnext', hd⟩ := does_of_step hrun hok
  cases hnext.symm.trans hnext'
  have hmemory : i.usesMemory ∧ ¬ i.writesMemory ∧ i.op ≠ .alloca ∧ i.op ≠ .getElementPtr ∧
      ¬ i.op.isAtomicUpdate ∧ ¬ (i.op = .store ∨ i.op = .storeAtomic) := by
    unfold Instr.usesMemory Instr.writesMemory
    rcases hop with hop | hop <;> rw [hop] <;> decide
  show ∃ bytes, _ ∧ ((l.step s w).lane.holdings (l.step s w).world).values id = _
  generalize (l.step s w).lane.holdings (l.step s w).world = d at hd
  cases hd with
  | loads _ hid' hsrc' hq' hread =>
      cases hid.symm.trans hid'
      cases hsrc.symm.trans hsrc'
      cases hq.symm.trans hq'
      exact ⟨_, hread, Holdings.set_self ..⟩
  | rests hno => exact absurd hmemory.1 hno
  | gives hno _ _ => exact absurd hmemory.1 hno
  | allocates hop' _ _ => exact absurd hop' hmemory.2.2.1
  | derives hop' _ _ _ => exact absurd hop' hmemory.2.2.2.1
  | updates hop' _ _ _ _ _ _ _ => exact absurd hop' hmemory.2.2.2.2.1
  | stores hop' _ _ _ _ _ => exact absurd hop' hmemory.2.2.2.2.2

/-- Every run can be recorded, and whatever the record is, a load through a pointer into the lane's own
    memory gives the value whose bytes were last left in its range. If the range was written as a whole
    with the bytes of a value of the loaded type, and has been left alone since, these are the components
    of the value. -/
theorem memory_is_flat (p : Program) (b : Bindings) (as : Analyses) (live : Array Bool) :
    (∀ l, Lane.Run p b as live l → ∃ c, l.Recorded p b as live c) ∧
    ∀ {l : Lane} {c : History} {s : Setting} {w : World} {state : StepState} {a : FunctionAnalysis}
      {i : Instr} {id src : Id} {q : Pointer},
      l.Recorded p b as live c → ¬ l.isFinished → s.program = p → s.analyses = as →
      (l.step s w).result = .ok state → l.nextInstr p as = .ok (a, i) →
      i.op = .load ∨ i.op = .loadAtomic → i.result = some id → i.argId 0 = .ok src →
      l.memory.pointer? src = some q → l.memory.hasAllocation q.base →
      ∃ v, (l.step s w).lane.value? id = some v ∧
        v = (Variable.zeroed (i.resultName id) i.ty).ofBytes (c.bytesAt q) ∧
        ∀ {newer older : History} {stored : Variable},
          c = newer ++ .write q.base q.offset stored.toBytes :: older →
          stored.toBytes.length = q.size →
          (∀ x ∈ newer, ∀ k, k < q.size → ¬ x.Touches q.base (q.offset + k)) →
          stored.HasType i.ty → v.HasType i.ty ∧ v.leaves = stored.leaves := by
  refine ⟨fun l hl => hl.recorded, ?_⟩
  intro l c s w state a i id src q hc hrun hp has hok hnext hop hid hsrc hq hown
  subst hp has
  have hresolve : l.resolve w.memory src = .ok q := by
    unfold resolve
    rw [hq]
    rfl
  obtain ⟨bytes, hread, hvalue⟩ := value_of_load hrun hok hnext hop hid hsrc hresolve
  rw [Holdings.read, Holdings.memoryOf, if_pos (show (l.holdings w).own.hasAllocation q.base from hown)]
    at hread
  have hremembers := hc.remembers
  obtain rfl := hremembers.describes.read (hremembers.size hq) hread
  refine ⟨_, hvalue, rfl, ?_⟩
  rintro newer older stored rfl hsize hnewer htype
  rw [History.bytesAt_append_write hsize hnewer]
  refine ⟨Variable.hasType_ofBytes .., ?_⟩
  have hshape := (Variable.shape_zeroed i.ty (i.resultName id) "").trans htype.shape.symm
  have hleaves := Variable.leaves_ofBytes_toBytes hshape htype.bounded []
  rwa [List.append_nil] at hleaves

/-- A program that stores to an element of an array, and loads from there. -/
def elementStoreLoad : Program :=
  { stage := .compute
    functions := #[{
      name := "elementStoreLoad"
      blocks := #[{}]
      instrs := #[
        { op := .alloca, ty := .pointer (.array (.int 32) 2) .stack, result := some ⟨0⟩ },
        { op := .getElementPtr, ty := .pointer (.int 32) .stack, result := some ⟨1⟩,
          args := [.ref ⟨0⟩, .const (.int 32 0), .const (.int 32 1)] },
        { op := .store, args := [.ref ⟨1⟩, .const (.int 32 5)] },
        { op := .load, ty := .int 32, result := some ⟨2⟩, args := [.ref ⟨1⟩] },
        { op := .ret }] }]
    idCount := 3 }

set_option synthInstance.maxSize 256 in
/-- The lane of this program loads what it has stored. -/
theorem elementStoreLoad_reads_back :
    ∃ (s₀ : Session) (l : Lane) (c : History) (v : Variable),
      Session.new elementStoreLoad {} {} [{}] 0 {} = .ok s₀ ∧
      l.Recorded elementStoreLoad s₀.bindings s₀.analyses s₀.liveGlobals (.write ⟨0⟩ 4 [5, 0, 0, 0] :: c) ∧
      l.value? ⟨2⟩ = some v ∧ v.leaves = [(.sInt, 5)] := by
  have h : ∃ s₀, Session.new elementStoreLoad {} {} [{}] 0 {} = .ok s₀ ∧
      ∃ states, s₀.start.result = .ok states ∧ ∃ s, s₀.start.session.advance .unbound 2 = .ok s ∧
      ∃ l, s.lanes[0]? = some l ∧ (¬ l.isFinished ∧ l.function = 0 ∧ l.instr = 2) ∧
      (∃ q, l.resolve s.world.memory ⟨1⟩ = .ok q ∧ q.base = ⟨0⟩ ∧ q.offset = 4 ∧
        l.memory.hasAllocation q.base) ∧
      (∃ state, (l.step (s.setting .unbound 0) s.world).result = .ok state ∧ True) ∧
      ∃ l', some (l.step (s.setting .unbound 0) s.world).lane = some l' ∧
      (¬ l'.isFinished ∧ l'.function = 0 ∧ l'.instr = 3) ∧
      (∃ q, l'.memory.pointer? ⟨1⟩ = some q ∧ q.base = ⟨0⟩ ∧ q.offset = 4 ∧ q.size = 4 ∧
        l'.memory.hasAllocation q.base) ∧
      ∃ state, (l'.step (s.setting .unbound 0) s.world).result = .ok state ∧ True := by
    decide +kernel
  obtain ⟨s₀, hnew, states, hstart, s, hs, l, hl, ⟨hrun, hfun, hinstr⟩, ⟨q, hq, hbase, hoffset, hown⟩,
    ⟨state, hok, -⟩, l', hl', ⟨hrun', hfun', hinstr'⟩, ⟨q', hq', hbase', hoffset', hsize', hown'⟩,
    state', hok', -⟩ := h
  cases hl'
  have hfresh := Session.fresh_of_new hnew
  have hreached := (Session.Reached.started hstart).advance hs
  have hprogram : s.program = elementStoreLoad := hreached.program_eq.trans hfresh.program
  have hanalyses : s.analyses = s₀.analyses := hreached.analyses_eq
  have hnexts : ∀ {l : Lane} {n : Nat} {i : Instr} {state : StepState}, ¬ l.isFinished → l.function = 0 →
      l.instr = n → elementStoreLoad.functions[0].instrs[n]? = some i →
      (l.step (s.setting .unbound 0) s.world).result = .ok state →
      ∃ a, l.nextInstr elementStoreLoad s₀.analyses = .ok (a, i) := by
    intro l n i state hrun hfun hinstr hi hok
    obtain ⟨a, i', hnext, -⟩ := does_of_step hrun hok
    replace hnext : l.nextInstr s.program s.analyses = .ok (a, i') := hnext
    rw [hprogram, hanalyses] at hnext
    obtain ⟨-, f, hf, hi'⟩ := nextInstr_eq_ok hnext
    rw [hfun] at hf
    cases hf
    rw [hinstr] at hi'
    cases hi.symm.trans hi'
    exact ⟨a, hnext⟩
  obtain ⟨a, hnext⟩ := hnexts hrun hfun hinstr rfl hok
  obtain ⟨a', hnext'⟩ := hnexts hrun' hfun' hinstr' rfl hok'
  have hflat := memory_is_flat elementStoreLoad s₀.bindings s₀.analyses s₀.liveGlobals
  obtain ⟨c, hc⟩ := hflat.1 l (hreached.run hfresh (List.mem_of_getElem? hl))
  have hstored : (Constant.int 32 5).toVariable.HasType (.int 32) := ⟨rfl, by unfold Variable.IsBounded; decide⟩
  have hrecorded := hc.stepped hprogram hanalyses hrun hnext
    (.stores (.inl rfl) rfl hq rfl) hok
  rw [writing, if_pos hown, hbase, hoffset] at hrecorded
  obtain ⟨v, hv, -, hread⟩ := hflat.2 hrecorded hrun' hprogram hanalyses hok' hnext'
    (.inl rfl) rfl rfl hq' hown'
  rw [hbase', hoffset', hsize'] at hread
  have hback := @hread [] c _ rfl rfl (fun _ hx => absurd hx List.not_mem_nil) hstored
  exact ⟨s₀, _, c, v, hnew, .stepped hrecorded hprogram hanalyses hrun' hnext' (.aside nofun nofun) hok', hv, hback.2⟩

end Lane

end Lockstep
