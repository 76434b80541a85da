import Lockstep.Proofs.Exec.Contents
import Lockstep.Proofs.Lane.Assigns
import Lockstep.Proofs.Lane.Backed

set_option autoImplicit false

/-! # Pointers lie inside their allocations

A pointer is registered by an allocation, for all of it, or is derived from another one, inside the same
allocation. An identifier allocates always the same number of bytes, and a write keeps that number, so that
pointers outlive writes and allocations that are made again (`Memory.Supports.allocate`). Whether the steps of a
lane succeed or not, what its memory and the shared one register lies inside (`Lane.supported_step`), and so
a read through a pointer succeeds, and a write of what fits the pointee (`Pointer.LiesIn.read`,
`Pointer.LiesIn.write`). -/

namespace Lockstep

/-! ## Ranges -/

/-- A pointer addresses a range of an allocation, as long as its type says. -/
structure Pointer.LiesIn (q : Pointer) (m : Memory) : Prop where
  size : q.size = q.pointee.byteSize
  inside : ∃ a, m.allocation? q.base = some a ∧ q.offset + q.size ≤ a.bytes.length ∧ a.bytes.length < UInt64.size

namespace Pointer.LiesIn

variable {q : Pointer} {m : Memory} {bytes : Bytes}

theorem of_allocation {m' : Memory} (h : q.LiesIn m) (hsame : m'.allocation? q.base = m.allocation? q.base) :
    q.LiesIn m' :=
  ⟨h.size, hsame ▸ h.inside⟩

/-- What a pointer addresses can be read, and is as long as it says. -/
theorem read (h : q.LiesIn m) : ∃ bytes, m.read q = .ok bytes ∧ bytes.length = q.size := by
  obtain ⟨a, ha, hinside, hlt⟩ := h.inside
  have hstop : q.stop q.size = q.offset + q.size := Nat.mod_eq_of_lt (Nat.lt_of_le_of_lt hinside hlt)
  have hslice : a.bytes.slice? q.offset (q.stop q.size) = some ((a.bytes.drop q.offset).take q.size) := by
    rw [hstop, Bytes.slice?, if_pos ⟨Nat.le_add_right .., hinside⟩, Nat.add_sub_cancel_left]
  refine ⟨(a.bytes.drop q.offset).take q.size, ?_, ?_⟩
  · rw [Memory.read, ha]
    dsimp only
    rw [hslice]
  · rw [List.length_take, List.length_drop]
    omega

/-- What is no longer than the pointee can be written. -/
theorem write (h : q.LiesIn m) (hfits : bytes.length ≤ q.size) : ∃ m', m.write q bytes = .ok m' := by
  obtain ⟨a, ha, hinside, -⟩ := h.inside
  rw [Memory.write, if_neg (Nat.not_lt_of_le hfits), ha]
  dsimp only
  rw [Bytes.splice?, if_pos (by omega)]
  exact ⟨_, rfl⟩

end Pointer.LiesIn

/-- An identifier allocates one type. -/
theorem Program.Allocates.pointee_eq {p : Program} {id : Id} {name name' : String} {pointee pointee' : Ty}
    (hp : p.UniqueIds) (h : p.Allocates id name pointee) (h' : p.Allocates id name' pointee') :
    pointee = pointee' := by
  obtain ⟨hi, -, hid, -, hty⟩ := h
  obtain ⟨hi', -, hid', -, hty'⟩ := h'
  obtain rfl := hp.eq_of_result hi hi' hid hid'
  exact Option.some.inj (hty.symm.trans hty')

namespace Memory

variable {m m' m'' own shared : Memory} {q : Pointer} {bytes : Bytes} {p : Program} {id : Id} {pointee : Ty}

theorem write_of_lt (h : q.size < bytes.length) :
    m.write q bytes = .error (.memory (.writeTooLong bytes.length q.size)) := by
  rw [write, if_pos h]

/-! ## Memories that differ in contents -/

/-- A memory registers the same pointers as another, and has allocations of the same lengths. -/
structure Alike (m m' : Memory) : Prop where
  pointer : ∀ x, m'.pointer? x = m.pointer? x
  length : ∀ base, (m'.allocation? base).map (·.bytes.length) = (m.allocation? base).map (·.bytes.length)

theorem Alike.refl (m : Memory) : m.Alike m := ⟨fun _ => rfl, fun _ => rfl⟩

theorem Alike.symm (h : m.Alike m') : m'.Alike m := ⟨fun x => (h.pointer x).symm, fun base => (h.length base).symm⟩

theorem Alike.trans (h : m.Alike m') (h' : m'.Alike m'') : m.Alike m'' :=
  ⟨fun x => (h'.pointer x).trans (h.pointer x), fun base => (h'.length base).trans (h.length base)⟩

theorem Alike.hasAllocation (h : m.Alike m') (base : Id) : m'.hasAllocation base = m.hasAllocation base := by
  have hlength := congrArg Option.isSome (h.length base)
  rwa [Option.isSome_map, Option.isSome_map] at hlength

theorem Alike.allocation {base : Id} {a : Allocation} (h : m.Alike m') (ha : m.allocation? base = some a) :
    ∃ a', m'.allocation? base = some a' ∧ a'.bytes.length = a.bytes.length := by
  have hlength := h.length base
  rw [ha] at hlength
  exact Option.map_eq_some_iff.1 hlength

theorem Alike.liesIn (h : m.Alike m') (hq : q.LiesIn m) : q.LiesIn m' := by
  obtain ⟨a, ha, hinside, hlt⟩ := hq.inside
  obtain ⟨a', ha', hlength⟩ := h.allocation ha
  exact ⟨hq.size, a', ha', hlength ▸ hinside, hlength ▸ hlt⟩

/-- A write keeps the lengths of allocations. -/
theorem alike_of_write (h : m.write q bytes = .ok m') : m.Alike m' := by
  obtain ⟨hpointers, -, hothers⟩ := write_ok h
  obtain ⟨-, a, new, ha, hnew, ha'⟩ := splice_of_write h
  refine ⟨fun x => congrArg (·.get? x) hpointers, fun base => ?_⟩
  by_cases hbase : base = q.base
  · rw [hbase, ha, ha', Option.map_some, Option.map_some]
    exact congrArg some (Bytes.length_splice? hnew)
  · rw [hothers base hbase]

/-! ## What a lane registers -/

/-- The memory where a lane finds an allocation: its own, or else the shared one. -/
def holding (own shared : Memory) (base : Id) : Memory := if own.hasAllocation base then own else shared

theorem allocation?_holding (own shared : Memory) (base : Id) :
    (own.holding shared base).allocation? base = (own.allocation? base).or (shared.allocation? base) := by
  unfold holding hasAllocation
  cases h : own.allocation? base with
  | none => rfl
  | some a => exact h

/-- A pointer lies inside where a lane finds its allocation, and that is the lane's own memory if the identifier of
    the allocation is the result of an instruction. -/
structure Holds (p : Program) (own shared : Memory) (q : Pointer) : Prop where
  liesIn : q.LiesIn (own.holding shared q.base)
  own : p.IsResult q.base → own.hasAllocation q.base

/-- All pointers of a lane's memory and of the shared one lie inside, and what the lane has allocated is as long as
    the allocating instructions say. -/
structure Supports (p : Program) (own shared : Memory) : Prop where
  pointer : ∀ {x q}, own.pointer? x = some q ∨ shared.pointer? x = some q → Holds p own shared q
  allocated : ∀ {base a}, own.allocation? base = some a →
    ∃ name pointee, p.Allocates base name pointee ∧ a.bytes.length = pointee.byteSize

theorem Alike.holding {own' shared' : Memory} (hown : own.Alike own') (hshared : shared.Alike shared') (base : Id) :
    (own.holding shared base).Alike (own'.holding shared' base) := by
  unfold Memory.holding
  rw [hown.hasAllocation]
  split
  · exact hown
  · exact hshared

/-- Pointers stay inside when contents change. -/
theorem Holds.alike {own' shared' : Memory} (h : Holds p own shared q) (hown : own.Alike own')
    (hshared : shared.Alike shared') : Holds p own' shared' q :=
  ⟨(hown.holding hshared q.base).liesIn h.liesIn, fun hresult => (hown.hasAllocation _).trans (h.own hresult)⟩

/-- What an identifier allocates holds the pointers to a part of as many bytes. -/
theorem holds_allocate (hbase : q.base = id) (hsize : q.size = q.pointee.byteSize)
    (hinside : q.offset + q.size ≤ pointee.byteSize) : Holds p (own.allocate id pointee false) shared q := by
  have hself : (own.allocate id pointee false).allocation? q.base =
      some ⟨List.replicate pointee.byteSize 0, false⟩ := (allocation?_allocate ..).trans (if_pos hbase)
  refine ⟨⟨hsize, ⟨List.replicate pointee.byteSize 0, false⟩, ?_, ?_, ?_⟩, fun _ => ?_⟩
  · rw [allocation?_holding, hself, Option.some_or]
  · rwa [List.length_replicate]
  · rw [List.length_replicate]
    exact pointee.byteSize_lt
  · rw [hasAllocation, hself]
    rfl

/-- Pointers stay inside when an identifier allocates, also if it has allocated before. -/
theorem Holds.allocate {name : String} (hp : p.UniqueIds) (h : own.Supports p shared)
    (hid : p.Allocates id name pointee) (hq : Holds p own shared q) :
    Holds p (own.allocate id pointee false) shared q := by
  by_cases hbase : q.base = id
  · -- the lane has allocated under the identifier before
    obtain ⟨a, ha⟩ := Option.isSome_iff_exists.1 (hq.own (hbase ▸ hid.isResult))
    obtain ⟨name', pointee', halloc, hlength⟩ := h.allocated ha
    obtain rfl : pointee' = pointee := (hbase ▸ halloc).pointee_eq hp hid
    obtain ⟨a', ha', hinside, -⟩ := hq.liesIn.inside
    rw [allocation?_holding, ha, Option.some_or] at ha'
    cases ha'
    exact holds_allocate hbase hq.liesIn.size (hlength ▸ hinside)
  · have hsame : (own.allocate id pointee false).allocation? q.base = own.allocation? q.base :=
      (allocation?_allocate ..).trans (if_neg hbase)
    refine ⟨hq.liesIn.of_allocation ?_, fun hresult => (congrArg Option.isSome hsame).trans (hq.own hresult)⟩
    rw [allocation?_holding, allocation?_holding, hsame]

namespace Supports

theorem alike {own' shared' : Memory} (h : own.Supports p shared) (hown : own.Alike own')
    (hshared : shared.Alike shared') : own'.Supports p shared' := by
  refine ⟨fun {x q} hq => ?_, fun {base a} ha => ?_⟩
  · rw [hown.pointer, hshared.pointer] at hq
    exact (h.pointer hq).alike hown hshared
  · obtain ⟨a', ha', hlength⟩ := hown.symm.allocation ha
    obtain ⟨name, pointee, halloc, hsize⟩ := h.allocated ha'
    exact ⟨name, pointee, halloc, hlength ▸ hsize⟩

/-- An identifier that allocates again makes as many bytes as before, so that the pointers to them stay inside. -/
theorem allocate {name : String} (hp : p.UniqueIds) (h : own.Supports p shared) (hid : p.Allocates id name pointee) :
    (own.allocate id pointee false).Supports p shared := by
  refine ⟨fun {x q} hq => ?_, fun {base a} ha => ?_⟩
  · rw [pointer?_allocate] at hq
    split at hq
    · rcases hq with hq | hq
      · cases hq
        exact holds_allocate rfl rfl (Nat.le_of_eq (Nat.zero_add _))
      · exact (h.pointer (.inr hq)).allocate hp h hid
    · exact (h.pointer hq).allocate hp h hid
  · rw [allocation?_allocate] at ha
    split at ha
    · next hbase =>
        cases ha
        exact ⟨name, pointee, hbase ▸ hid, List.length_replicate⟩
    · exact h.allocated ha

theorem addPointer (h : own.Supports p shared) (hq : Holds p own shared q) :
    (own.addPointer id q).Supports p shared := by
  refine ⟨fun {x q'} hq' => ?_, h.allocated⟩
  rw [pointer?_addPointer] at hq'
  suffices hold : Holds p own shared q' by
    refine ⟨hold.liesIn.of_allocation ?_, hold.own⟩
    rw [allocation?_holding, allocation?_holding]
    rfl
  split at hq'
  · rcases hq' with hq' | hq'
    · cases hq'
      exact hq
    · exact h.pointer (.inr hq')
  · exact h.pointer hq'

end Supports

end Memory

namespace Lane

variable {p : Program} {l : Lane} {shared : Memory} {i : Instr} {q : Pointer} {id : Id}

/-- What an identifier holds for a lane is registered. -/
theorem holds_of_resolve (h : l.memory.Supports p shared) (hq : l.resolve shared id = .ok q) :
    Memory.Holds p l.memory shared q := by
  unfold resolve at hq
  split at hq
  · next hfound =>
      cases hq
      rcases (Option.orElse_eq_some ..).1 hfound with hown | ⟨-, hshared⟩
      · exact h.pointer (.inl hown)
      · exact h.pointer (.inr hshared)
  · cases hq

/-- A derived pointer lies inside the allocation of the one that it is derived from, whatever the indices are. -/
theorem holds_of_derive (h : l.memory.Supports p shared) (hq : l.derive shared i = .ok q) :
    Memory.Holds p l.memory shared q := by
  obtain ⟨src, base, _, _, offset, ty, a, -, hbase, -, -, -, ha, hplace⟩ := derive_ok hq
  obtain ⟨hpos, hinside, rfl⟩ := placeAt_ok hplace
  have hold := holds_of_resolve h hbase
  obtain ⟨a', ha', -, hlt⟩ := hold.liesIn.inside
  cases ha.symm.trans ha'
  refine ⟨⟨rfl, a, ha, ?_, hlt⟩, hold.own⟩
  show offset.toNat + ty.byteSize ≤ _
  omega

end Lane

/-! ## Instructions -/

/-- The memory of the machine's lane and the shared one are related. -/
def Machine.Remembers (K : Memory → Memory → Prop) (m : Machine) : Prop := K m.lane.memory m.world.memory

theorem Machine.Remembers.ofContents {K : Memory → Memory → Prop} : Machine.OfContents (Machine.Remembers K) := by
  intro m m' hm _ hheld
  have hown : m'.lane.memory = m.lane.memory := congrArg Holdings.own hheld
  have hshared : m'.world.memory = m.world.memory := congrArg Holdings.shared hheld
  rwa [Remembers, hown, hshared]

namespace Step

variable {K : Memory → Memory → Prop} {s : Setting} {i : Instr} {a : FunctionAnalysis} {id : Id} {v : Variable}
  {q : Pointer} {bytes : Bytes}

theorem remembers_lane : Maintains (Machine.Remembers K) (fun _ => True) lane := fun _ hm => ⟨hm, fun _ _ => trivial⟩

theorem remembers_modifyLane {f : Lane → Lane} (hf : ∀ l, (f l).memory = l.memory) :
    Maintains (Machine.Remembers K) (fun _ => True) (modifyLane f) := by
  refine fun m hm => ⟨?_, fun _ _ => trivial⟩
  show K (f m.lane).memory m.world.memory
  rwa [hf]

/-- What the instructions on memory keep of memories, every step keeps, whether it succeeds or not. -/
theorem remembers_step {l : Lane} {w : World}
    (hmemory : ∀ i, s.program.HasInstr i → Maintains (Machine.Remembers K) (fun _ => True) (memory i))
    (h : K l.memory w.memory) : K (l.step s w).lane.memory (l.step s w).world.memory := by
  have hexecute : (execute s).Maintains (Machine.Remembers K) fun _ => True := by
    refine Machine.Remembers.ofContents.execute
      (fun i hi => Machine.Remembers.ofContents.instruction (hmemory i hi)) fun _ x v _ _ _ m hm => ?_
    show K (m.lane.assign x _).memory m.world.memory
    rwa [Lane.memory_assign]
  exact hexecute.step (J := fun l w => K l.memory w.memory) h

/-- A write of no more bytes than a pointer says succeeds where the pointer lies inside. -/
theorem writeThrough_of_liesIn {m : Machine} (h : q.LiesIn (m.lane.memoryOf m.world.memory q.base))
    (hfits : bytes.length ≤ q.size) : ((writeThrough q bytes).on m).1 = .ok () := by
  unfold Lane.memoryOf at h
  unfold writeThrough
  show ((if m.lane.memory.hasAllocation q.base then _ else _ : Step Unit).on m).1 = _
  split at h
  · obtain ⟨memory, hok⟩ := h.write hfits
    rw [if_pos ‹_›]
    show ((liftM (m.lane.memory.write q bytes) >>= _ : Step Unit).on m).1 = _
    rw [on_bind, on_lift, hok]
    rfl
  · obtain ⟨memory, hok⟩ := h.write hfits
    rw [if_neg ‹_›]
    show ((liftM (m.world.memory.write q bytes) >>= _ : Step Unit).on m).1 = _
    rw [on_bind, on_lift, hok]
    rfl

/-- A write of more bytes than a pointer says fails and changes nothing. -/
theorem writeThrough_of_lt {m : Machine} (h : q.size < bytes.length) :
    (writeThrough q bytes).on m = (.error (.memory (.writeTooLong bytes.length q.size)), m) := by
  unfold writeThrough
  show (if m.lane.memory.hasAllocation q.base then _ else _ : Step Unit).on m = _
  split
  · show (liftM (m.lane.memory.write q bytes) >>= _ : Step Unit).on m = _
    rw [on_bind, on_lift, Memory.write_of_lt h]
  · show (liftM (m.world.memory.write q bytes) >>= _ : Step Unit).on m = _
    rw [on_bind, on_lift, Memory.write_of_lt h]

/-! ## Instructions on memory -/

variable {p : Program} {shared₀ : Memory}

/-- The shared memory differs from that at the start in contents alone, and all pointers lie inside. -/
def Supported (p : Program) (shared₀ own shared : Memory) : Prop := own.Supports p shared₀ ∧ shared₀.Alike shared

theorem Supported.supports {own shared : Memory} (h : Supported p shared₀ own shared) : own.Supports p shared :=
  h.1.alike (.refl _) h.2

theorem supported_lane : Maintains (Machine.Remembers (Supported p shared₀)) (fun l => l.memory.Supports p shared₀)
    lane :=
  fun _ hm => ⟨hm, fun _ h => ok_inj h ▸ hm.1⟩

theorem supported_shared : Maintains (Machine.Remembers (Supported p shared₀)) (fun m => shared₀.Alike m)
    Step.shared :=
  fun _ hm => ⟨hm, fun _ h => ok_inj h ▸ hm.2⟩

theorem supported_writeThrough :
    Maintains (Machine.Remembers (Supported p shared₀)) (fun _ => True) (writeThrough q bytes) := by
  have hown : ∀ {memory : Memory}, memory.Supports p shared₀ →
      Yields (fun m : Memory => m.Supports p shared₀) (memory.write q bytes) :=
    fun h _ hok => h.alike (Memory.alike_of_write hok) (.refl _)
  have hshared : ∀ {memory : Memory}, shared₀.Alike memory →
      Yields (fun m : Memory => shared₀.Alike m) (memory.write q bytes) :=
    fun h _ hok => h.trans (Memory.alike_of_write hok)
  unfold writeThrough
  refine .bind supported_lane fun l _ => .ite (fun _ => ?_) fun _ => ?_
  · refine .bind supported_lane fun l hl => .bind (.lift (hown hl)) fun memory hmemory => ?_
    exact fun m hm => ⟨⟨hmemory, hm.2⟩, fun _ _ => trivial⟩
  · refine .bind supported_shared fun shared h => .bind (.lift (hshared h)) fun memory hmemory => ?_
    exact fun m hm => ⟨⟨hm.1, hmemory⟩, fun _ _ => trivial⟩

theorem supported_alloca (hp : p.UniqueIds) (hi : p.HasInstr i) (hop : i.op = .alloca) :
    Maintains (Machine.Remembers (Supported p shared₀)) (fun _ => True) (alloca i) := by
  have hallocate : ∀ {memory : Memory} {id : Id}, memory.Supports p shared₀ → i.result = some id →
      Yields (fun r : Variable × Memory => r.2.Supports p shared₀)
        (memory.allocateFor i.ty id false (i.resultName id)) := by
    intro memory id hmemory hid r hr
    obtain ⟨pointee, hty, rfl⟩ := Memory.allocateFor_ok hr
    exact hmemory.allocate hp (.alloca hi hop hid rfl hty)
  unfold alloca
  refine .bind (.lift Instr.yields_resultId) fun id hid => .bind supported_lane fun l hl => ?_
  refine .bind (.lift (hallocate hl hid)) fun ⟨v, memory⟩ hmemory => ?_
  refine .bind (Q := fun _ => True) ?_ fun _ _ => .pure trivial
  exact fun m hm => ⟨⟨hmemory, hm.2⟩, fun _ _ => trivial⟩

theorem supported_elementPointer :
    Maintains (Machine.Remembers (Supported p shared₀)) (fun _ => True) (elementPointer i) := by
  unfold elementPointer
  refine .bind (.lift Instr.yields_resultId) fun id _ m hm => ?_
  have hon : ∀ f : Pointer → Step Effect, (lane >>= fun l => shared >>= fun shared =>
      liftM (l.derive shared i) >>= f).on m = (liftM (m.lane.derive m.world.memory i) >>= f).on m := fun _ => rfl
  rw [hon, on_bind, on_lift]
  cases hq : m.lane.derive m.world.memory i with
  | error fault => exact ⟨hm, fun _ h => nomatch h⟩
  | ok q =>
      -- the pointer that is added lies in what the lane had before, and the lane has that still
      have hread : (readThrough q).on m = (m.lane.readThrough m.world.memory q, m) := rfl
      dsimp only
      rw [on_bind, hread]
      cases m.lane.readThrough m.world.memory q with
      | error fault => exact ⟨hm, fun _ h => nomatch h⟩
      | ok bytes =>
          have hold := (Lane.holds_of_derive hm.supports hq).alike (.refl _) hm.2.symm
          exact ⟨⟨hm.1.addPointer hold, hm.2⟩, fun _ _ => trivial⟩

/-- What an instruction on memory leaves is supported. -/
theorem supported_memory (s : Setting) (hp : p.UniqueIds) (hi : p.HasInstr i) :
    Maintains (Machine.Remembers (Supported p shared₀)) (fun _ => True) (memory i) := by
  refine (Machine.Remembers.ofContents.threads (s := s)).memory_of (fun _ hm => ⟨hm, fun _ _ => trivial⟩)
    (fun _ _ => supported_writeThrough) (fun x v => ?_) (supported_alloca hp hi) fun _ => supported_elementPointer
  unfold overwrite
  refine .bind remembers_lane fun l _ => .ite (fun _ => ?_) fun _ => .pure trivial
  exact .bind (Q := fun _ => True) (fun _ hm => ⟨hm, fun _ _ => trivial⟩) fun _ _ =>
    remembers_modifyLane fun l => Lane.memory_assign l x v

end Step

/-- Whether its step succeeds or not, the pointers of a lane stay inside, and the shared memory changes in contents
    alone. -/
theorem Lane.supported_step {p : Program} {shared₀ : Memory} {l : Lane} {s : Setting} {w : World} (hp : p.UniqueIds)
    (hs : s.program = p) (h : Step.Supported p shared₀ l.memory w.memory) :
    Step.Supported p shared₀ (l.step s w).lane.memory (l.step s w).world.memory :=
  Step.remembers_step (fun _ hi => Step.supported_memory s hp (hs ▸ hi)) h

end Lockstep
