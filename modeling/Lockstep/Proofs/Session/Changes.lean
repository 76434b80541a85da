import Lockstep.Proofs.Lane.Backed
import Lockstep.Proofs.Lane.Snapshots
import Lockstep.Proofs.Session.Canonical
import Lockstep.Proofs.Session.Turns

set_option autoImplicit false

/-! # What a step leaves alone

In its turn a lane gives values to the result of its instruction and, if that writes to memory, to the
pointer and the allocation that it leads to. All other values of the lane stay, and so do all other
lanes. The memory of global variables changes only by a write through a pointer to a global variable,
and the snapshot of a resource only by a store or an atomic update for its slot. So identifiers that do
not stand for memory change only when their own instructions are executed
(`Session.changes_are_of_instruction`). -/

namespace Lockstep

/-! ## Steps -/

namespace Lane

/-- The instruction writes to memory through the pointer of an identifier. -/
def WritesThrough (l : Lane) (shared : Memory) (i : Instr) (src : Id) (q : Pointer) : Prop :=
  i.writesMemory ∧ i.argId 0 = .ok src ∧ l.resolve shared src = .ok q

/-- What an instruction may make of the shared memory: it changes only by a write to one of its own
    allocations, and keeps its pointers and its allocations. -/
structure Reaches (l : Lane) (i : Instr) (shared shared' : Memory) : Prop where
  change : shared' ≠ shared → ∃ src q, l.WritesThrough shared i src q ∧
    ¬ l.memory.hasAllocation q.base ∧ shared.hasAllocation q.base
  pointers_eq : shared'.pointers = shared.pointers
  hasAllocation_eq : ∀ base, shared'.hasAllocation base = shared.hasAllocation base

theorem Reaches.refl (l : Lane) (i : Instr) (shared : Memory) : l.Reaches i shared shared :=
  ⟨fun h => absurd rfl h, rfl, fun _ => rfl⟩

end Lane

theorem Instr.writesMemory_of_store {i : Instr} (hop : i.op = .store ∨ i.op = .storeAtomic) :
    i.writesMemory := by
  rcases hop with hop | hop <;> rw [writesMemory, hop]

theorem Instr.writesMemory_of_atomic {i : Instr} (hop : i.op.isAtomicUpdate) : i.writesMemory := by
  unfold Opcode.isAtomicUpdate at hop
  unfold writesMemory
  split at hop <;> simp_all

namespace Holdings

variable {d d' : Holdings} {q : Pointer} {bytes : Bytes} {id x : Id}

theorem Refreshes.value_eq (h : d.Refreshes id q d') (hid : x ≠ id) (hbase : x ≠ q.base) :
    d'.values x = d.values x := by
  cases h with
  | base _ _ _ => exact set_of_ne _ hbase _
  | derived _ _ _ _ _ => rw [set_of_ne _ hid, set_of_ne _ hbase]

end Holdings

namespace Lane.Does

variable {s : Setting} {i : Instr} {l : Lane} {w : World} {d d' : Holdings} {id src x : Id} {q : Pointer}
  {bytes : Bytes}

/-- A write through a pointer leaves alone what is neither the pointer nor the allocation. -/
theorem value_of_refreshes (hthrough : l.WritesThrough w.memory i src q)
    (hw : (l.holdings w).Writes q bytes d) (hd : d.Refreshes src q d') (hchanged : d'.values x ≠ l.value? x) :
    ∃ src q, l.WritesThrough w.memory i src q ∧ (x = src ∨ x = q.base) := by
  refine ⟨src, q, hthrough, ?_⟩
  by_contra hno
  rw [not_or] at hno
  refine hchanged ?_
  rw [hd.value_eq hno.1 hno.2, hw.values_eq]
  rfl

/-- An instruction gives values to its result and, if it writes to memory, to the pointer and the
    allocation. The output apart. -/
theorem value_cases (h : l.Does s i w d) (hx : x ≠ l.outputId)
    (hchanged : d.values x ≠ l.value? x) :
    i.result = some x ∨ ∃ src q, l.WritesThrough w.memory i src q ∧ (x = src ∨ x = q.base) := by
  have hset : ∀ {d₁ : Holdings} {id v}, (d₁.set id v).values x ≠ l.value? x →
      x = id ∨ d₁.values x ≠ l.value? x := by
    intro d₁ id v hchanged
    refine (em (x = id)).imp_right fun hne => ?_
    rwa [Holdings.set_of_ne _ hne] at hchanged
  -- what is set beside the result does not change what the lane held
  have hresult : ∀ {d₁ : Holdings} {id v}, d₁.values = l.value? → i.result = some id →
      (d₁.set id v).values x ≠ l.value? x → i.result = some x := by
    intro d₁ id v hsame hid hchanged
    rcases hset hchanged with rfl | hchanged
    · exact hid
    · exact absurd (congrFun hsame x) hchanged
  cases h with
  | rests _ => exact absurd rfl hchanged
  | gives _ hid _ =>
      rcases hid with hid | rfl
      · exact .inl (hresult rfl hid hchanged)
      · rcases hset hchanged with rfl | hchanged
        · exact absurd rfl hx
        · exact absurd rfl hchanged
  | allocates _ hid _ => exact .inl (hresult rfl hid hchanged)
  | loads _ hid _ _ _ => exact .inl (hresult rfl hid hchanged)
  | derives _ hid _ _ => exact .inl (hresult rfl hid hchanged)
  | stores hop hsrc hq _ hw hd =>
      exact .inr (value_of_refreshes ⟨Instr.writesMemory_of_store hop, hsrc, hq⟩ hw hd hchanged)
  | updates hop hsrc hq _ _ _ hw hd =>
      have hthrough := Instr.writesMemory_of_atomic hop
      cases hres : i.result with
      | none =>
          rw [hres] at hchanged
          exact .inr (value_of_refreshes ⟨hthrough, hsrc, hq⟩ hw hd hchanged)
      | some id =>
          rw [hres] at hchanged
          rcases hset hchanged with rfl | hchanged
          · exact .inl rfl
          · exact .inr (value_of_refreshes ⟨hthrough, hsrc, hq⟩ hw hd hchanged)

/-- What a write through a pointer makes of memory. -/
theorem memory_of_refreshes (hthrough : l.WritesThrough w.memory i src q)
    (hw : (l.holdings w).Writes q bytes d) (hd : d.Refreshes src q d') :
    l.Reaches i w.memory d'.shared ∧ d'.own.pointers = l.memory.pointers := by
  obtain ⟨hown, hshared⟩ := hd.memory_eq
  rw [hown, hshared]
  refine ⟨⟨fun hchanged => ?_, hw.pointers_eq.2, hw.hasAllocation_eq.2⟩, hw.pointers_eq.1⟩
  cases hw with
  | own _ _ => exact absurd rfl hchanged
  | shared hbase hwrite => exact ⟨src, q, hthrough, hbase, (Memory.write_counts hwrite).1⟩

theorem reaches (h : l.Does s i w d) : l.Reaches i w.memory d.shared := by
  cases h with
  | rests _ => exact .refl ..
  | gives _ _ _ => exact .refl ..
  | allocates _ _ _ => exact .refl ..
  | loads _ _ _ _ _ => exact .refl ..
  | derives _ _ _ _ => exact .refl ..
  | stores hop hsrc hq _ hw hd =>
      exact (memory_of_refreshes ⟨Instr.writesMemory_of_store hop, hsrc, hq⟩ hw hd).1
  | updates hop hsrc hq _ _ _ hw hd =>
      have hreaches := (memory_of_refreshes ⟨Instr.writesMemory_of_atomic hop, hsrc, hq⟩ hw hd).1
      cases hres : i.result with
      | none => exact hreaches
      | some id => exact hreaches

/-- An identifier gets a pointer when the instruction of which it is the result allocates, or derives a
    pointer from another to the same allocation. -/
theorem pointer_cases (h : l.Does s i w d) (hx : d.own.pointer? x = some q) :
    l.memory.pointer? x = some q ∨ (i.result = some x ∧ ((i.op = .alloca ∧ q.base = x) ∨
      (i.op = .getElementPtr ∧ ∃ src q', l.resolve w.memory src = .ok q' ∧ q.base = q'.base))) := by
  have hkept : ∀ {own : Memory}, own.pointers = l.memory.pointers → own.pointer? x = some q →
      l.memory.pointer? x = some q := fun hown hx => (congrArg (·.get? x) hown).symm.trans hx
  cases h with
  | rests _ => exact .inl hx
  | gives _ _ _ => exact .inl hx
  | @allocates id pointee hop hid _ =>
      replace hx : (l.memory.allocate id pointee false).pointer? x = some q := hx
      rw [Memory.pointer?_allocate] at hx
      split at hx
      · next heq =>
          cases hx
          exact .inr ⟨heq ▸ hid, .inl ⟨hop, heq.symm⟩⟩
      · exact .inl hx
  | loads _ _ _ _ _ => exact .inl hx
  | @derives id q' bytes hop hid hq' _ =>
      replace hx : (l.memory.addPointer id q').pointer? x = some q := hx
      rw [Memory.pointer?_addPointer] at hx
      split at hx
      · next heq =>
          cases hx
          obtain ⟨src, q₀, -, hq₀, hbase⟩ := Lane.yields_derive q hq'
          exact .inr ⟨heq ▸ hid, .inr ⟨hop, src, q₀, hq₀, hbase⟩⟩
      · exact .inl hx
  | stores hop hsrc hq _ hw hd =>
      obtain ⟨-, hown⟩ := memory_of_refreshes ⟨Instr.writesMemory_of_store hop, hsrc, hq⟩ hw hd
      exact .inl (hkept hown hx)
  | updates hop hsrc hq _ _ _ hw hd =>
      obtain ⟨-, hown⟩ := memory_of_refreshes ⟨Instr.writesMemory_of_atomic hop, hsrc, hq⟩ hw hd
      cases hres : i.result with
      | none => exact .inl (hkept hown (by rwa [hres] at hx))
      | some id => exact .inl (hkept hown (by rwa [hres] at hx))

end Lane.Does

/-! ## Identifiers that stand for memory -/

/-- An identifier may stand for memory: it is that of a global variable or the result of an allocation or
    of a derived pointer, or the memory that the program starts with has a pointer for it or to it. -/
inductive Program.Points (p : Program) (b : Bindings) (m : Memory) : Id → Prop
  | declared {x : Id} (hx : p.IsGlobal x) : Points p b m x
  | bound {x : Id} (hx : x ∈ b.globals.map (·.id)) : Points p b m x
  | result {i : Instr} {x : Id} (hi : p.HasInstr i) (hop : i.op = .alloca ∨ i.op = .getElementPtr)
      (hid : i.result = some x) : Points p b m x
  | pointer {x : Id} {q : Pointer} (hq : m.pointer? x = some q) : Points p b m x
  | base {x : Id} {q : Pointer} (hq : m.pointer? x = some q) : Points p b m q.base

/-- The identifiers that have pointers have a property, and so have the allocations behind them. -/
def Memory.PointsIn (m : Memory) (P : Id → Prop) : Prop :=
  ∀ {x q}, m.pointer? x = some q → P x ∧ P q.base

theorem Lane.pointsIn_of_resolve {l : Lane} {shared : Memory} {P : Id → Prop} {x : Id} {q : Pointer}
    (hown : l.memory.PointsIn P) (hshared : shared.PointsIn P) (h : l.resolve shared x = .ok q) :
    P x ∧ P q.base := by
  unfold resolve at h
  split at h
  · next q' hq' =>
      cases h
      rcases (Option.orElse_eq_some ..).1 hq' with hq | ⟨-, hq⟩
      · exact hown hq
      · exact hshared hq
  · cases h

/-- A step keeps where pointers belong, and the allocations of the shared memory. -/
theorem Lane.pointsIn_of_step {l : Lane} {s : Setting} {w : World} {state : StepState} {P : Id → Prop}
    (hP : ∀ {i x}, s.program.HasInstr i → i.op = .alloca ∨ i.op = .getElementPtr → i.result = some x → P x)
    (hown : l.memory.PointsIn P) (hshared : w.memory.PointsIn P)
    (hok : (l.step s w).result = .ok state) :
    (l.step s w).lane.memory.PointsIn P ∧ (l.step s w).world.memory.PointsIn P ∧
      ∀ base, (l.step s w).world.memory.hasAllocation base = w.memory.hasAllocation base := by
  by_cases hfin : l.isFinished
  · rw [step, if_pos hfin]
    exact ⟨hown, hshared, fun _ => rfl⟩
  obtain ⟨a, i, hnext, hd⟩ := does_of_step hfin hok
  have hi := Program.hasInstr_of_nextInstr hnext
  have hreaches := hd.reaches
  refine ⟨fun {x q} hq => ?_,
    fun {x q} hq => hshared ((congrArg (·.get? x) hreaches.pointers_eq).symm.trans hq),
    hreaches.hasAllocation_eq⟩
  rcases hd.pointer_cases hq with hq | ⟨hid, ⟨hop, hbase⟩ | ⟨hop, src, q', hq', hbase⟩⟩
  · exact hown hq
  · have hx := hP hi (.inl hop) hid
    exact ⟨hx, hbase ▸ hx⟩
  · exact ⟨hP hi (.inr hop) hid, hbase ▸ (pointsIn_of_resolve hown hshared hq').2⟩

theorem Lane.Refreshing.memory_eq {gs : List GlobalVar} {l l' : Lane} (h : Refreshing gs l l') :
    l'.memory = l.memory := by
  induction h with
  | refl => rfl
  | @tail l₁ l₂ _ h ih =>
      obtain ⟨memory, h⟩ := h
      have hmemory := memory_refreshGlobals l₁ memory gs
      rw [h] at hmemory
      exact hmemory.trans ih

/-- To read global variables again leaves other values alone. -/
theorem Lane.Refreshing.value_eq {gs : List GlobalVar} {l l' : Lane} {x : Id} (h : Refreshing gs l l')
    (hx : x ∉ gs.map (·.id)) : l'.value? x = l.value? x := by
  induction h with
  | refl => rfl
  | tail _ h ih =>
      obtain ⟨memory, h⟩ := h
      exact ((value_refreshGlobals h x).1 hx).trans ih

namespace Session

/-- Pointers belong to identifiers that may stand for memory, and the shared memory has allocations of
    global variables. `w` is what the lanes share at the start. -/
structure Pointed (p : Program) (b : Bindings) (w : World) (s : Session) : Prop where
  program : s.program = p
  own : ∀ {l}, l ∈ s.lanes → l.memory.PointsIn (p.Points b w.memory)
  shared : s.world.memory.PointsIn (p.Points b w.memory)
  allocation : ∀ {base}, s.world.memory.hasAllocation base →
    p.IsGlobal base ∨ w.memory.hasAllocation base

variable {p : Program} {b : Bindings} {w : World} {s₀ s t : Session} {host : Host} {k : Nat}
  {states : List StepState} {inits : List LaneInit} {active : Nat} {config : Config}

namespace Pointed

theorem stepLane {index : Nat} (h : t.Pointed p b w)
    (hok : (t.stepLane host index).result = .ok states) :
    (t.stepLane host index).session.Pointed p b w := by
  cases hl : t.lanes[index]? with
  | none =>
      rwa [stepLane_of_none hl]
  | some l =>
      obtain ⟨state, hstep, hsession, -⟩ := stepLane_ok hl hok
      rw [hsession]
      obtain ⟨hown, hshared, hallocations⟩ := Lane.pointsIn_of_step
        (fun hi hop hid => .result (h.program ▸ hi) hop hid) (h.own (List.mem_of_getElem? hl)) h.shared hstep
      refine ⟨h.program, fun {l'} hl' => ?_, hshared, fun {base} hbase =>
        h.allocation ((hallocations base).symm.trans hbase)⟩
      rcases List.mem_or_eq_of_mem_set hl' with hl' | rfl
      · exact h.own hl'
      · exact hown

theorem stepLanes {index : Nat} {mask : List Bool} (h : s.Pointed p b w)
    (hok : (s.stepLanes host index mask).result = .ok states) :
    (s.stepLanes host index mask).session.Pointed p b w :=
  stepLanes_induction h (fun _ _ _ ht hok => ht.stepLane hok) hok

/-- A session with the same program, the same shared memory and lanes with the same memory. -/
theorem of_memory (h : s.Pointed p b w) (hprogram : t.program = s.program)
    (hworld : t.world = s.world)
    (hlanes : ∀ {l'}, l' ∈ t.lanes → ∃ l ∈ s.lanes, l'.memory = l.memory) : t.Pointed p b w := by
  refine ⟨hprogram.trans h.program, fun {l'} hl' => ?_, hworld ▸ h.shared, hworld ▸ h.allocation⟩
  obtain ⟨l, hl, hmemory⟩ := hlanes hl'
  exact hmemory ▸ h.own hl

theorem round (h : s.Pointed p b w) (hok : (s.round host).result = .ok states) :
    (s.round host).session.Pointed p b w := by
  obtain ⟨hstepped, hrefreshed, hsession⟩ := round_ok hok
  have hby := (lanesBy_refresh hrefreshed).trans (lanesBy_skipNops s.mask)
    (T := fun _ l l' => l'.memory = l.memory) fun j l l₁ l' _ h₁ h₂ => by
      rw [h₂, ← Lane.Refreshing.memory_eq h₁]
      split
      · exact l₁.memory_skipNops _
      · rfl
  rw [hsession]
  refine (h.stepLanes hstepped).of_memory hby.program ?_ fun hl' => ?_
  · rw [skipNops, refresh_session]
  · obtain ⟨j, hj⟩ := List.getElem?_of_mem hl'
    obtain ⟨l, hl, hmemory⟩ := hby.lane j _ hj
    exact ⟨l, List.mem_of_getElem? hl, hmemory⟩

end Pointed

/-- What the declarations of global variables add to pointers and allocations. -/
theorem pointers_of_allocateGlobals {ds : List GlobalDecl} {b b' : Bindings} {live live' : Array Bool}
    {w w' : World} (h : allocateGlobals b live w ds = .ok (b', live', w')) :
    (∀ {x q}, w'.memory.pointer? x = some q →
      ((∃ g ∈ ds, g.id = x) ∧ q.base = x) ∨ w.memory.pointer? x = some q) ∧
    (∀ {base}, w'.memory.hasAllocation base → (∃ g ∈ ds, g.id = base) ∨ w.memory.hasAllocation base) ∧
    b'.globals.map (·.id) = b.globals.map (·.id) ++ ds.map (·.id) := by
  induction ds generalizing b live w with
  | nil =>
      cases h
      exact ⟨.inr, .inr, (List.append_nil _).symm⟩
  | cons d ds ih =>
      obtain ⟨v, w₁, hd, -, h₁⟩ := allocateGlobals_cons h
      obtain ⟨hpointers, hallocations, hids⟩ := ih h₁
      have hallocates := World.allocates_of_allocateGlobal hd
      refine ⟨fun {x q} hq => ?_, fun {base} hbase => ?_, ?_⟩
      · rcases hpointers hq with ⟨⟨g, hg, hid⟩, hbase⟩ | hq
        · exact .inl ⟨⟨g, List.mem_cons_of_mem _ hg, hid⟩, hbase⟩
        · rcases hallocates.pointer hq with ⟨rfl, hbase⟩ | hq
          · exact .inl ⟨⟨d, List.mem_cons_self, rfl⟩, hbase⟩
          · exact .inr hq
      · rcases hallocations hbase with ⟨g, hg, hid⟩ | hbase
        · exact .inl ⟨g, List.mem_cons_of_mem _ hg, hid⟩
        · by_cases hx : base = d.id
          · exact .inl ⟨d, List.mem_cons_self, hx.symm⟩
          · rw [Memory.hasAllocation, hallocates.others hx] at hbase
            exact .inr hbase
      · rw [hids]
        simp [Bindings.addGlobal]

theorem pointed_of_new (hnew : Session.new p b w inits active config = .ok s) : s.Pointed p b w := by
  obtain ⟨-, analyses, bindings, live, world, -, hglobals, rfl⟩ := new_ok hnew
  obtain ⟨hpointers, hallocations, -⟩ := pointers_of_allocateGlobals hglobals
  refine ⟨rfl, fun {l} hl => ?_, fun {x q} hq => ?_, hallocations⟩
  · obtain ⟨j, hj⟩ := List.getElem?_of_mem hl
    obtain ⟨init, rfl⟩ := (fresh_of_new hnew).lane j l hj
    intro x q hq
    cases hq
  · rcases hpointers hq with ⟨hx, hbase⟩ | hq
    · exact ⟨.declared hx, hbase ▸ .declared hx⟩
    · exact ⟨.pointer hq, .base hq⟩

theorem pointed_of_reached (hnew : Session.new p b w inits active config = .ok s₀)
    (hs : Reached s₀ s) : s.Pointed p b w := by
  induction hs with
  | started hok =>
      refine (pointed_of_new hnew).of_memory (lanesBy_start hok).program ?_ fun hl' => ?_
      · rw [(start_ok hok).1]
      · obtain ⟨j, hj⟩ := List.getElem?_of_mem hl'
        obtain ⟨l, hl, henter⟩ := (lanesBy_start hok).lane j _ hj
        exact ⟨l, List.mem_of_getElem? hl, (Lane.memory_of_enter henter).2⟩
  | round _ hok ih => exact ih.round hok

/-! ## Turns and rounds -/

/-- What the turn of a lane may have changed. `t` and `l` are the session and the lane before the turn,
    `i` is the instruction, and `w` is what the lanes shared at the start. -/
structure Changes (p : Program) (b : Bindings) (w : World) (k : Nat) (t t' : Session) (l l' : Lane)
    (i : Instr) : Prop where
  value : ∀ {x : Id}, x.index < p.idCount → l'.value? x ≠ l.value? x → i.result = some x ∨
    ∃ src q, l.WritesThrough t.world.memory i src q ∧ (x = src ∨ x = q.base)
  own : ∀ {x : Id}, x.index < p.idCount → ¬ p.Points b w.memory x → l'.value? x ≠ l.value? x →
    i.result = some x
  lanes : ∀ {j : Nat}, j ≠ k → t'.lanes[j]? = t.lanes[j]?
  memory : t'.world.memory ≠ t.world.memory → ∃ src q, l.WritesThrough t.world.memory i src q ∧
    ¬ l.memory.hasAllocation q.base ∧ (p.IsGlobal q.base ∨ w.memory.hasAllocation q.base)
  uav : ∀ {slot : Slot} {snapshot : Snapshot}, t.world.uavs.get? slot = some snapshot →
    t'.world.uavs.get? slot ≠ some snapshot → l.Stores p i slot

/-- What the turn of a lane that is not finished changes. -/
theorem Pointed.changes {l : Lane} (h : t.Pointed p b w) (hl : t.lanes[k]? = some l)
    (hfin : ¬ l.isFinished) (hsize : l.cells.size = p.idCount)
    (hok : (t.stepLane host k).result = .ok states) :
    ∃ l' a i, (t.stepLane host k).session.lanes[k]? = some l' ∧
      l.nextInstr p t.analyses = .ok (a, i) ∧ Changes p b w k t (t.stepLane host k).session l l' i := by
  obtain ⟨state, hstep, hsession, -⟩ := stepLane_ok hl hok
  obtain ⟨a, i, hnext, hd⟩ := Lane.does_of_step hfin hstep
  have hkeeps := Lane.keeps_of_step hfin hstep hnext
  have hothers := lanesBy_stepLane hok
  have hprogram : (t.setting host k).program = p := h.program
  rw [hprogram] at hnext hkeeps
  have hvalue : ∀ {x : Id}, x.index < p.idCount →
      (l.step (t.setting host k) t.world).lane.value? x ≠ l.value? x → i.result = some x ∨
        ∃ src q, l.WritesThrough t.world.memory i src q ∧ (x = src ∨ x = q.base) :=
    fun hx hchanged => hd.value_cases (Lane.ne_outputId (hsize.symm ▸ hx)) hchanged
  rw [hsession] at hothers ⊢
  refine ⟨_, a, i, List.getElem?_set_self (List.getElem?_eq_some_iff.1 hl).1, hnext, hvalue,
    fun {x} hx hno hchanged => ?_, fun {j} hj => ?_, fun hchanged => ?_,
    fun {slot snapshot} hslot hchanged => ?_⟩
  · refine (hvalue hx hchanged).resolve_right ?_
    rintro ⟨src, q, ⟨-, -, hq⟩, hx⟩
    obtain ⟨hsrc, hbase⟩ :=
      Lane.pointsIn_of_resolve (h.own (List.mem_of_getElem? hl)) h.shared hq
    rcases hx with rfl | rfl
    · exact hno hsrc
    · exact hno hbase
  · exact hothers.getElem?_eq fun hsame => by rwa [if_neg hj] at hsame
  · obtain ⟨src, q, hthrough, hown, hshared⟩ := hd.reaches.change hchanged
    exact ⟨src, q, hthrough, hown, h.allocation hshared⟩
  · by_contra hno
    exact hchanged (hkeeps.uav hno hslot)

/-- The turn of a lane changes, of that lane, only the value of the result of its instruction and, if
    that writes to memory, those of the pointer and the allocation; of the memory of global variables only
    what a write through a pointer to one reaches; and of the snapshots of read-write resources only the
    one whose slot a store to a resource or an atomic update is for. So in a round an identifier that
    stands for no memory changes in a lane only if it is the result of the instruction that the lane
    executes. -/
theorem changes_are_of_instruction (hnew : Session.new p b w inits active config = .ok s₀)
    (hs : Reached s₀ s) (host : Host) :
    (∀ {k states}, s.HasTurn host k → (s.turn host k).result = .ok states →
      ∃ l l' a i, (s.stepLanes host 0 (s.mask.take k)).session.lanes[k]? = some l ∧
        (s.turn host k).session.lanes[k]? = some l' ∧ l.nextInstr p s.analyses = .ok (a, i) ∧
        Changes p b w k (s.stepLanes host 0 (s.mask.take k)).session (s.turn host k).session l l' i) ∧
    ∀ {states}, (s.round host).result = .ok states → ∀ {k l l' x}, s.lanes[k]? = some l →
      (s.round host).session.lanes[k]? = some l' → x.index < p.idCount → ¬ p.Points b w.memory x →
      l'.value? x ≠ l.value? x →
      ∃ a i, s.HasTurn host k ∧ l.nextInstr p s.analyses = .ok (a, i) ∧ i.result = some x := by
  have hpointed := pointed_of_reached hnew hs
  have hturns : ∀ {k states}, s.HasTurn host k → (s.turn host k).result = .ok states →
      ∃ l l' a i, (s.stepLanes host 0 (s.mask.take k)).session.lanes[k]? = some l ∧
        (s.turn host k).session.lanes[k]? = some l' ∧ l.nextInstr p s.analyses = .ok (a, i) ∧
        Changes p b w k (s.stepLanes host 0 (s.mask.take k)).session (s.turn host k).session l l' i := by
    rintro k states ⟨hk, before, hbefore⟩ hok
    obtain ⟨l, hl, hfin⟩ := running_of_mask hk
    have hsize : l.cells.size = p.idCount :=
      congrArg Prod.snd (hs.run (fresh_of_new hnew) (List.mem_of_getElem? hl)).build_eq
    have hl := (getElem?_stepLanes_take hbefore).trans hl
    obtain ⟨l', a, i, hl', hnext, hchanges⟩ := (hpointed.stepLanes hbefore).changes hl hfin hsize hok
    rw [(lanesBy_stepLanes hbefore).analyses] at hnext
    exact ⟨l, l', a, i, hl, hl', hnext, hchanges⟩
  refine ⟨hturns, fun {states} hok {k l l' x} hl hl' hx hno hchanged => ?_⟩
  obtain ⟨hstepped, hrefreshed, hsession⟩ := round_ok hok
  -- after the turns only global variables are read again
  have hafter := (lanesBy_refresh hrefreshed).trans (lanesBy_skipNops s.mask)
    (T := fun _ l l' => l'.value? x = l.value? x) fun j l l₁ l' _ h₁ h₂ => by
      have hglobal : x ∉ (s.stepLanes host 0 s.mask).session.bindings.globals.map (·.id) := by
        rw [(lanesBy_stepLanes hstepped).bindings, hs.bindings_eq]
        obtain ⟨-, _, _, _, _, -, hglobals, rfl⟩ := new_ok hnew
        obtain ⟨-, -, hids⟩ := pointers_of_allocateGlobals hglobals
        show x ∉ List.map _ _
        rw [hids, List.mem_append, not_or]
        refine ⟨fun hmem => hno (.bound hmem), fun hmem => ?_⟩
        obtain ⟨g, hg, rfl⟩ := List.mem_map.1 hmem
        exact hno (.declared ⟨g, hg, rfl⟩)
      rw [h₂, ← Lane.Refreshing.value_eq h₁ hglobal]
      split
      · rw [l₁.value_skipNops]
      · rfl
  rw [hsession] at hl'
  obtain ⟨l₁, hl₁, hsame⟩ := hafter.lane k l' hl'
  rw [hsame] at hchanged
  by_cases hk : s.mask[k]? = some true
  · obtain ⟨hturn, states', hok'⟩ := hasTurn_of_ok hstepped hk
    have hlast := getElem?_stepLanes hstepped hk
    rw [Nat.zero_add] at hlast
    obtain ⟨m, m', a, i, hm, hm', hnext, hchanges⟩ := hturns hturn hok'
    obtain rfl : l₁ = m' := Option.some.inj (hl₁.symm.trans (hlast.trans hm'))
    obtain rfl : l = m := by
      obtain ⟨before, hbefore⟩ := hturn.2
      exact Option.some.inj (hl.symm.trans ((getElem?_stepLanes_take hbefore).symm.trans hm))
    exact ⟨a, i, hturn, hnext, hchanges.own hx hno hchanged⟩
  · have hkept : (s.stepLanes host 0 s.mask).session.lanes[k]? = s.lanes[k]? :=
      (lanesBy_stepLanes hstepped).getElem?_eq fun hsame => by
        rwa [Nat.sub_zero, if_neg fun h => hk h.2] at hsame
    rw [hl₁, hl] at hkept
    exact absurd (congrArg (Lane.value? · x) (Option.some.inj hkept)) hchanged

/-- Notes a number in a global variable and in a buffer. -/
def writeGlobalThenBuffer : Program :=
  { stage := .compute
    globals := [{ id := ⟨0⟩, name := "total", ty := .pointer (.int 32) .groupShared }]
    resources := [{ name := "log", cls := .uav, kind := .typedBuffer }]
    functions := #[{
      name := "writeGlobalThenBuffer"
      blocks := #[{}]
      instrs := #[
        { op := .call, ty := .handle, result := some ⟨1⟩, callee := some (.intrinsic .createHandle),
          args := [.const (.int 32 1), .const (.int 32 0), .const (.int 32 0)] },
        { op := .store, args := [.ref ⟨0⟩, .const (.int 32 7)] },
        { op := .call, callee := some (.intrinsic .bufferStore),
          args := [.ref ⟨1⟩, .const (.int 32 0), .const (.int 32 0), .const (.int 32 7)] },
        { op := .ret }] }]
    idCount := 2 }

/-- The buffer of this program has one element. -/
def oneElementBuffer : World :=
  ({} : World).setUav (.ofRegister 0 0)
    { info := { numElements := 1, format := .new 4 1 .uInt }, data := [0, 0, 0, 0] }

/-- The turn of the first of two lanes writes the global variable, and its turn in the next round writes
    the buffer. -/
theorem writeGlobalThenBuffer_changes :
    ∃ s₀ s s', Session.new writeGlobalThenBuffer {} oneElementBuffer [{}, {}] 0 {} = .ok s₀ ∧
      Reached s₀ s ∧ Reached s₀ s' ∧
      (∃ l l' a i, s.lanes[0]? = some l ∧ (s.turn .unbound 0).session.lanes[0]? = some l' ∧
        l.nextInstr writeGlobalThenBuffer s.analyses = .ok (a, i) ∧
        Changes writeGlobalThenBuffer {} oneElementBuffer 0 s (s.turn .unbound 0).session l l' i) ∧
      ((s.turn .unbound 0).session.world.memory.allocation? ⟨0⟩).map (·.bytes) = some [7, 0, 0, 0] ∧
      (∃ l l' a i, s'.lanes[0]? = some l ∧ (s'.turn .unbound 0).session.lanes[0]? = some l' ∧
        l.nextInstr writeGlobalThenBuffer s'.analyses = .ok (a, i) ∧
        Changes writeGlobalThenBuffer {} oneElementBuffer 0 s' (s'.turn .unbound 0).session l l' i) ∧
      ((s'.turn .unbound 0).session.world.uavs.get? (.ofRegister 0 0)).map (·.data) =
        some [7, 0, 0, 0] := by
  have h : ∃ s₀, Session.new writeGlobalThenBuffer {} oneElementBuffer [{}, {}] 0 {} = .ok s₀ ∧
      ∃ states, s₀.start.result = .ok states ∧ ∃ s, s₀.start.session.advance .unbound 1 = .ok s ∧
        ∃ s', s.advance .unbound 1 = .ok s' ∧
        s.HasTurn .unbound 0 ∧ (∃ states, (s.turn .unbound 0).result = .ok states ∧ True) ∧
        ((s.turn .unbound 0).session.world.memory.allocation? ⟨0⟩).map (·.bytes) = some [7, 0, 0, 0] ∧
        s'.HasTurn .unbound 0 ∧ (∃ states, (s'.turn .unbound 0).result = .ok states ∧ True) ∧
        ((s'.turn .unbound 0).session.world.uavs.get? (.ofRegister 0 0)).map (·.data) =
          some [7, 0, 0, 0] := by
    decide +kernel
  obtain ⟨s₀, hnew, states, hstart, s, hs, s', hs', hturn, ⟨_, hok, -⟩, hbytes, hturn', ⟨_, hok', -⟩,
    hdata⟩ := h
  have hreached : s₀.Reached s := (Reached.started hstart).advance hs
  have hreached' : s₀.Reached s' := hreached.advance hs'
  exact ⟨s₀, s, s', hnew, hreached, hreached',
    (changes_are_of_instruction hnew hreached .unbound).1 hturn hok, hbytes,
    (changes_are_of_instruction hnew hreached' .unbound).1 hturn' hok', hdata⟩

end Session

end Lockstep
