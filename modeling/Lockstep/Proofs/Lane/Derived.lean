import Lockstep.Proofs.Lane.Assigns

set_option autoImplicit false

/-! # Variables of derived pointers

A derived pointer has a variable, which shows the bytes in its range. A step renews the variable when it
derives the pointer or writes through it, and all other steps leave it alone, also those that write to
the range through another pointer (`Lane.Does.eq_of_not_renews`). A step that does not touch the range
leaves its bytes alone (`Lane.Does.read_eq`). -/

namespace Lockstep

/-! ## Ranges -/

/-- Two pointers address bytes of one allocation in common. -/
def Pointer.Overlaps (q q' : Pointer) : Prop :=
  q.base = q'.base ∧ q.offset < q'.offset + q'.size ∧ q'.offset < q.offset + q.size

instance (q q' : Pointer) : Decidable (q.Overlaps q') := inferInstanceAs (Decidable (_ ∧ _ ∧ _))

theorem Bytes.slice?_splice? {bs new out : Bytes} {place start stop : Nat}
    (h : bs.splice? place new = some out) (hapart : stop ≤ place ∨ place + new.length ≤ start) :
    out.slice? start stop = bs.slice? start stop := by
  unfold slice?
  rw [Bytes.length_splice? h]
  split
  · next hrange =>
      refine congrArg some (List.ext_getElem? fun k => ?_)
      by_cases hk : k < stop - start
      · rw [List.getElem?_take_of_lt hk, List.getElem?_take_of_lt hk, List.getElem?_drop,
          List.getElem?_drop, Bytes.getElem?_splice? h, if_neg (by omega)]
      · rw [List.getElem?_take_eq_none (by omega), List.getElem?_take_eq_none (by omega)]
  · rfl

theorem Memory.read_of_allocation_eq {m m' : Memory} {q : Pointer}
    (h : m'.allocation? q.base = m.allocation? q.base) : m'.read q = m.read q := by
  unfold read
  rw [h]

/-- What is read through a pointer stays when bytes are written through one that addresses others. -/
theorem Memory.read_of_write {m m' : Memory} {q q' : Pointer} {bytes : Bytes}
    (h : m.write q bytes = .ok m') (hapart : ¬ q.Overlaps q') : m'.read q' = m.read q' := by
  obtain ⟨hlength, a, new, ha, hnew, ha'⟩ := Memory.splice_of_write h
  by_cases hbase : q'.base = q.base
  · have hstop : q'.stop q'.size ≤ q'.offset + q'.size := Nat.mod_le ..
    have hranges : q'.stop q'.size ≤ q.offset ∨ q.offset + bytes.length ≤ q'.offset := by
      by_contra hno
      exact hapart ⟨hbase.symm, by omega, by omega⟩
    unfold read
    rw [hbase, ha, ha']
    dsimp only
    rw [Bytes.slice?_splice? hnew hranges, Bytes.length_splice? hnew]
  · exact read_of_allocation_eq ((Memory.write_ok h).2.2 _ hbase)

namespace Holdings

variable {d d' : Holdings} {q q' : Pointer} {bytes : Bytes} {id : Id}

theorem Writes.read_eq (h : d.Writes q bytes d') (hapart : ¬ q.Overlaps q') :
    d'.read q' = d.read q' := by
  have hown := h.hasAllocation_eq.1 q'.base
  unfold read memoryOf
  rw [hown]
  cases h with
  | own _ hwrite =>
      split
      · exact Memory.read_of_write hwrite hapart
      · rfl
  | shared _ hwrite =>
      split
      · rfl
      · exact Memory.read_of_write hwrite hapart

theorem read_of_memory_eq (h : d'.own = d.own ∧ d'.shared = d.shared) (q : Pointer) :
    d'.read q = d.read q := by
  rw [read, memoryOf, h.1, h.2]
  rfl

/-- What is read depends on the lane's own memory only by the allocation that is read. -/
theorem read_of_allocation_eq {own : Memory} (h : own.allocation? q.base = d.own.allocation? q.base) :
    ({ d with own } : Holdings).read q = d.read q := by
  have hhas : own.hasAllocation q.base = d.own.hasAllocation q.base := congrArg Option.isSome h
  show (if own.hasAllocation q.base then own else d.shared).read q =
    (if d.own.hasAllocation q.base then d.own else d.shared).read q
  rw [hhas]
  split
  · exact Memory.read_of_allocation_eq h
  · rfl

/-- A write leads to an allocation. -/
theorem Writes.hasAllocation (h : d.Writes q bytes d') :
    d.own.hasAllocation q.base ∨ d.shared.hasAllocation q.base := by
  cases h with
  | own hbase _ => exact .inl hbase
  | shared _ hwrite => exact .inr (Memory.write_counts hwrite).1

/-- After a write through a derived pointer, its variable shows the bytes that it addresses. -/
theorem Refreshes.shows (h : d.Refreshes id q d') (hne : id ≠ q.base) :
    ∃ v bytes, d.values id = some v ∧ d'.values id = some (v.ofBytes bytes) ∧ d'.read q = .ok bytes := by
  cases h with
  | base hid _ _ => exact absurd hid hne
  | @derived old v a bytes hid hold ha hv hread =>
      exact ⟨v, bytes, hv, set_self .., hread⟩

end Holdings

namespace Lane

/-- An instruction derives the pointer of an identifier, or writes through it. -/
def Renews (l : Lane) (shared : Memory) (i : Instr) (id : Id) : Prop :=
  (i.op = .getElementPtr ∧ i.result = some id) ∨ ∃ q, l.WritesThrough shared i id q

/-- An instruction writes to the range of a pointer, or makes the allocation of the pointer anew. -/
def Touches (l : Lane) (shared : Memory) (i : Instr) (q : Pointer) : Prop :=
  (i.op = .alloca ∧ i.result = some q.base) ∨
    ∃ src q', l.WritesThrough shared i src q' ∧ q'.Overlaps q

namespace Does

variable {s : Setting} {i : Instr} {l : Lane} {w : World} {d : Holdings} {id src : Id} {q : Pointer}

/-- An instruction that does not touch the range of a pointer leaves its bytes alone. -/
theorem read_eq (h : l.Does s i w d) (hapart : ¬ l.Touches w.memory i q) :
    d.read q = (l.holdings w).read q := by
  have hthrough : ∀ {src q' bytes d₁ d₂}, l.WritesThrough w.memory i src q' →
      (l.holdings w).Writes q' bytes d₁ → d₁.Refreshes src q' d₂ → d₂.read q = (l.holdings w).read q := by
    intro src q' bytes d₁ d₂ hwrites hw hd
    rw [Holdings.read_of_memory_eq hd.memory_eq]
    exact hw.read_eq fun hoverlaps => hapart (.inr ⟨src, q', hwrites, hoverlaps⟩)
  cases h with
  | rests _ => rfl
  | gives _ _ _ => rfl
  | @allocates id pointee hop hid _ =>
      have hne : q.base ≠ id := fun heq => hapart (.inl ⟨hop, heq ▸ hid⟩)
      exact Holdings.read_of_allocation_eq (d := l.holdings w)
        ((Memory.allocation?_allocate ..).trans (if_neg hne))
  | loads _ _ _ _ _ => rfl
  | derives _ _ _ _ => exact Holdings.read_of_allocation_eq (d := l.holdings w) rfl
  | stores hop hsrc hq _ hw hd => exact hthrough ⟨Instr.writesMemory_of_store hop, hsrc, hq⟩ hw hd
  | updates hop hsrc hq _ _ _ hw hd =>
      have hread := hthrough ⟨Instr.writesMemory_of_atomic hop, hsrc, hq⟩ hw hd
      cases hres : i.result with
      | none => exact hread
      | some id => exact hread

/-- An instruction that writes through an identifier writes to the range of its pointer and refreshes its
    variable. Besides that, it gives at most its result a value. -/
theorem writes (h : l.Does s i w d) (hwrites : l.WritesThrough w.memory i src q) :
    ∃ bytes d₁ d₂, (l.holdings w).Writes q bytes d₁ ∧ d₁.Refreshes src q d₂ ∧
      (d.own = d₂.own ∧ d.shared = d₂.shared) ∧ ∀ id, i.result ≠ some id → d.values id = d₂.values id := by
  obtain ⟨hi, hsrc, hq⟩ := hwrites
  have huses := Instr.usesMemory_of_writesMemory hi
  cases h with
  | rests hno => exact absurd huses hno
  | gives hno _ _ => exact absurd huses hno
  | allocates hop _ _ => simp [Instr.writesMemory, hop] at hi
  | loads hop _ _ _ _ => rcases hop with hop | hop <;> simp [Instr.writesMemory, hop] at hi
  | derives hop _ _ _ => simp [Instr.writesMemory, hop] at hi
  | stores _ hsrc' hq' _ hw hd =>
      cases hsrc.symm.trans hsrc'
      cases hq.symm.trans hq'
      exact ⟨_, _, _, hw, hd, ⟨rfl, rfl⟩, fun _ _ => rfl⟩
  | @updates _ _ _ _ _ _ d' _ hsrc' hq' _ _ _ hw hd =>
      cases hsrc.symm.trans hsrc'
      cases hq.symm.trans hq'
      refine ⟨_, _, _, hw, hd, ?_⟩
      cases hres : i.result with
      | none => exact ⟨⟨rfl, rfl⟩, fun _ _ => rfl⟩
      | some r =>
          refine ⟨⟨rfl, rfl⟩, fun id hid => Holdings.set_of_ne d' (fun heq => hid ?_) _⟩
          rw [heq]

/-- What an instruction writes through leads to an allocation. -/
theorem hasAllocation (h : l.Does s i w d) (hwrites : l.WritesThrough w.memory i src q) :
    l.memory.hasAllocation q.base ∨ w.memory.hasAllocation q.base := by
  obtain ⟨_, _, _, hw, -⟩ := h.writes hwrites
  exact hw.hasAllocation

/-- An instruction changes no pointer but that of its result. -/
theorem pointer_eq (h : l.Does s i w d) (hid : i.result ≠ some id) :
    d.own.pointer? id = l.memory.pointer? id := by
  have hthrough : ∀ {src q' bytes d₁ d₂}, (l.holdings w).Writes q' bytes d₁ → d₁.Refreshes src q' d₂ →
      d₂.own.pointer? id = l.memory.pointer? id := by
    intro src q' bytes d₁ d₂ hw hd
    rw [hd.memory_eq.1]
    exact congrArg (·.get? id) hw.pointers_eq.1
  have hne : ∀ {id'}, i.result = some id' → id ≠ id' := fun hid' heq => hid (heq ▸ hid')
  cases h with
  | rests _ => rfl
  | gives _ _ _ => rfl
  | allocates _ hid' _ => exact (Memory.pointer?_allocate ..).trans (if_neg (hne hid'))
  | loads _ _ _ _ _ => rfl
  | derives _ hid' _ _ => exact (Memory.pointer?_addPointer ..).trans (if_neg (hne hid'))
  | stores _ _ _ _ hw hd => exact hthrough hw hd
  | updates _ _ _ _ _ _ hw hd =>
      have hpointer := hthrough hw hd
      cases hres : i.result with
      | none => exact hpointer
      | some id => exact hpointer

/-- A pointer that is derived gets a variable that shows the bytes that it addresses. -/
theorem derived (h : l.Does s i w d) (hop : i.op = .getElementPtr) (hid : i.result = some id) :
    ∃ q bytes, d.own.pointer? id = some q ∧ d.read q = .ok bytes ∧
      d.values id = some ((Variable.zeroed (i.resultName id) q.pointee).ofBytes bytes) := by
  cases h with
  | @derives id' q bytes _ hid' _ hread =>
      cases hid.symm.trans hid'
      have hsame : ({ l.holdings w with own := l.memory.addPointer id q } : Holdings).read q =
          (l.holdings w).read q := Holdings.read_of_allocation_eq rfl
      exact ⟨q, bytes, (Memory.pointer?_addPointer ..).trans (if_pos rfl), hsame.trans hread,
        Holdings.set_self ..⟩
  | rests hno => exact absurd (by rw [Instr.usesMemory, hop]) hno
  | gives hno _ _ => exact absurd (by rw [Instr.usesMemory, hop]) hno
  | allocates hop' _ _ => cases hop.symm.trans hop'
  | loads hop' _ _ _ _ => rcases hop' with hop' | hop' <;> cases hop.symm.trans hop'
  | stores hop' _ _ _ _ _ => rcases hop' with hop' | hop' <;> cases hop.symm.trans hop'
  | updates hop' _ _ _ _ _ _ _ =>
      rw [hop] at hop'
      cases hop'

/-- A write through a derived pointer refills its variable with the bytes that it addresses then. -/
theorem written (h : l.Does s i w d) (hwrites : l.WritesThrough w.memory i id q) (hne : id ≠ q.base)
    (hid : i.result ≠ some id) :
    ∃ v bytes, l.value? id = some v ∧ d.values id = some (v.ofBytes bytes) ∧ d.read q = .ok bytes := by
  obtain ⟨_, _, _, hw, hd, hmemory, hvalues⟩ := h.writes hwrites
  obtain ⟨v, bytes, hv, hv', hread⟩ := hd.shows hne
  exact ⟨v, bytes, (congrFun hw.values_eq id).symm.trans hv, (hvalues id hid).trans hv',
    (Holdings.read_of_memory_eq hmemory q).trans hread⟩

/-- An instruction that neither derives a pointer nor writes through it leaves the pointer and its variable
    alone. -/
theorem eq_of_not_renews (h : l.Does s i w d) (hno : ¬ l.Renews w.memory i id) (houtput : id ≠ l.outputId)
    (hderives : i.result = some id → i.op = .getElementPtr)
    (hbase : ∀ {src q}, l.WritesThrough w.memory i src q → id ≠ q.base) :
    d.values id = l.value? id ∧ d.own.pointer? id = l.memory.pointer? id := by
  have hid : i.result ≠ some id := fun hid => hno (.inl ⟨hderives hid, hid⟩)
  refine ⟨?_, h.pointer_eq hid⟩
  by_contra hchanged
  rcases h.value_cases houtput hchanged with hresult | ⟨src, q, hwrites, rfl | heq⟩
  · exact hid hresult
  · exact hno (.inr ⟨q, hwrites⟩)
  · exact hbase hwrites heq

end Does

end Lane

end Lockstep
