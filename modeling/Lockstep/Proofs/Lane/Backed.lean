import Lockstep.Proofs.Ids
import Lockstep.Proofs.Lane.Holdings

set_option autoImplicit false

/-! # Variables that memory backs

The variable of an allocation is the zero of its type with the content of the allocation. Every step
keeps that (`Holdings.Backed.of_does`). A lane's copy of a global variable falls behind when other lanes
write, but it keeps its shape, so that it shows the memory as soon as it has been read again. -/

namespace Lockstep

/-- An instruction allocates under an identifier, whose variable has a name. -/
inductive Program.Allocates (p : Program) (id : Id) (name : String) (pointee : Ty) : Prop
  | alloca {i : Instr} (hi : p.HasInstr i) (hop : i.op = .alloca) (hid : i.result = some id)
      (hname : i.resultName id = name) (hty : i.ty.pointee? = some pointee)

theorem Program.Allocates.isResult {p : Program} {id : Id} {name : String} {pointee : Ty}
    (h : p.Allocates id name pointee) : p.IsResult id := by
  cases h with
  | alloca hi _ hid _ _ => exact hi.isResult hid

namespace Memory

variable {m m' : Memory} {q : Pointer} {bytes : Bytes}

/-- A write leads to an allocation, and is counted. -/
theorem write_counts (h : m.write q bytes = .ok m') :
    m.hasAllocation q.base ∧ m'.writes = m.writes + 1 := by
  unfold write at h
  split at h
  · cases h
  · split at h
    · cases h
    · next a ha =>
        split at h
        · cases h
        · cases h
          exact ⟨by rw [hasAllocation, ha]; rfl, rfl⟩

end Memory

namespace Holdings

variable {p : Program} {s : Setting} {i : Instr} {l : Lane} {w : World} {d d' : Holdings}
  {id src : Id} {q : Pointer} {v : Variable} {bytes : Bytes} {name : String} {pointee : Ty}
  {g : GlobalDecl}

/-- The variables of allocations show what the lane's memory holds, and the copies of global variables
    what the shared memory holds. -/
structure Canonical (p : Program) (d : Holdings) : Prop where
  alloca : ∀ {id name pointee}, p.Allocates id name pointee →
    d.values id = (d.own.allocation? id).map fun a => (Variable.zeroed name pointee).ofBytes a.bytes
  global : ∀ {g}, g ∈ p.globals → ∃ pointee a, g.ty.pointee? = some pointee ∧
    d.shared.allocation? g.id = some a ∧
    d.values g.id = some ((Variable.zeroed g.name pointee).ofBytes a.bytes)

/-- The variables of allocations show what the lane's memory holds, and the copies of global variables
    show what memory may have held. Identifiers that allocate point to their own allocations. -/
structure Backed (p : Program) (d : Holdings) : Prop where
  alloca : ∀ {id name pointee}, p.Allocates id name pointee →
    d.values id = (d.own.allocation? id).map fun a => (Variable.zeroed name pointee).ofBytes a.bytes
  allocation : ∀ {id}, d.own.hasAllocation id → ∃ name pointee, p.Allocates id name pointee
  isResult : ∀ {id q}, d.own.pointer? id = some q → p.IsResult id
  base : ∀ {id name pointee}, p.Allocates id name pointee → d.own.hasAllocation id →
    ∃ q, d.own.pointer? id = some q ∧ q.base = id
  shared : ∀ {g q}, g ∈ p.globals → d.shared.pointer? g.id = some q → q.base = g.id
  global : ∀ {g}, g ∈ p.globals → ∃ pointee bytes, g.ty.pointee? = some pointee ∧
    d.values g.id = some ((Variable.zeroed g.name pointee).ofBytes bytes)

/-- What a step leaves of global variables: either no lane notices anything, or a write has been
    counted. -/
def Spares (p : Program) (d d' : Holdings) : Prop :=
  (d'.shared = d.shared ∧ ∀ {g}, g ∈ p.globals → d'.values g.id = d.values g.id) ∨
    (d'.shared.writes = d.shared.writes + 1 ∧ d'.shared.pointers = d.shared.pointers ∧
      ∀ id, d'.shared.hasAllocation id = d.shared.hasAllocation id)

namespace Backed

/-- A value is given to an identifier that neither allocates nor is that of a global variable. -/
theorem set (h : d.Backed p) (halloca : ∀ {name pointee}, ¬ p.Allocates id name pointee)
    (hglobal : ¬ p.IsGlobal id) (v : Variable) : (d.set id v).Backed p := by
  refine ⟨fun {x name pointee} hx => ?_, h.allocation, h.isResult, h.base, h.shared, fun {g} hg => ?_⟩
  · rw [set_of_ne d fun heq : x = id => halloca (heq ▸ hx)]
    exact h.alloca hx
  · rw [set_of_ne d fun heq : g.id = id => hglobal ⟨g, hg, heq⟩]
    exact h.global hg

/-- An identifier that resolves to another's allocation neither allocates nor is that of a global
    variable, if it has a value. -/
theorem apart_of_resolve (hp : p.UniqueIds) (h : (l.holdings w).Backed p)
    (hq : l.resolve w.memory id = .ok q) (hne : id ≠ q.base) (hv : (l.value? id).isSome) :
    (∀ {name pointee}, ¬ p.Allocates id name pointee) ∧ ¬ p.IsGlobal id := by
  unfold Lane.resolve at hq
  split at hq
  · next q' hq' =>
      cases hq
      constructor
      · intro name pointee halloca
        have hvalue : l.value? id = _ := h.alloca halloca
        have hown : l.memory.hasAllocation id := by
          rw [hvalue, Option.isSome_map] at hv
          exact hv
        obtain ⟨q₁, hq₁, hbase⟩ := h.base halloca hown
        rw [show l.memory.pointer? id = some q₁ from hq₁] at hq'
        cases hq'
        exact hne hbase.symm
      · rintro ⟨g, hg, rfl⟩
        rcases (Option.orElse_eq_some ..).1 hq' with hq' | ⟨-, hq'⟩
        · exact hp.apart (h.isResult hq') ⟨g, hg, rfl⟩
        · exact hne (h.shared hg hq').symm
  · cases hq

/-- After a write, the variable of the allocation shows the new content. -/
theorem refreshed (hp : p.UniqueIds) (h : d.Backed p) {old : Variable} {a : Allocation} {d₁ : Holdings}
    (hw : d.Writes q bytes d₁) (hold : d₁.values q.base = some old)
    (ha : (d₁.memoryOf q.base).allocation? q.base = some a) :
    (d₁.set q.base (old.ofBytes a.bytes)).Backed p ∧
      d.Spares p (d₁.set q.base (old.ofBytes a.bytes)) := by
  obtain ⟨hown, hshared⟩ := hw.pointers_eq
  obtain ⟨hhas, hhas'⟩ := hw.hasAllocation_eq
  rw [hw.values_eq] at hold
  refine ⟨⟨fun {id name pointee} hid => ?_, fun {id} hid => ?_, fun {id q'} hq' => ?_,
    fun {id name pointee} hid hid' => ?_, fun {g q'} hg hq' => ?_, fun {g} hg => ?_⟩, ?_⟩
  · by_cases heq : id = q.base
    · subst heq
      -- the allocation is the lane's own, and the variable has its shape
      have hvalue := h.alloca hid
      rw [hold] at hvalue
      obtain ⟨b, hb, hv⟩ := Option.map_eq_some_iff.1 hvalue.symm
      have hmine : d₁.own.hasAllocation q.base := by
        rw [hhas, Memory.hasAllocation, hb]
        rfl
      rw [memoryOf, if_pos hmine] at ha
      rw [set_self, ← hv, Variable.ofBytes_ofBytes]
      show _ = (d₁.own.allocation? q.base).map _
      rw [ha]
      rfl
    · rw [set_of_ne d₁ heq, hw.values_eq]
      show _ = (d₁.own.allocation? id).map _
      rw [hw.allocation_eq heq]
      exact h.alloca hid
  · exact h.allocation ((hhas id).symm.trans hid)
  · exact h.isResult (q := q') (by rw [Memory.pointer?, ← hown]; exact hq')
  · obtain ⟨q', hq', hbase⟩ := h.base hid ((hhas id).symm.trans hid')
    exact ⟨q', (congrArg (·.get? id) hown).trans hq', hbase⟩
  · exact h.shared hg ((congrArg (·.get? g.id) hshared).symm.trans hq')
  · obtain ⟨pointee, content, hty, hvalue⟩ := h.global hg
    by_cases heq : g.id = q.base
    · rw [heq, hold] at hvalue
      cases hvalue
      rw [heq]
      exact ⟨pointee, a.bytes, hty, by rw [set_self, Variable.ofBytes_ofBytes]⟩
    · exact ⟨pointee, content, hty, by rw [set_of_ne d₁ heq, hw.values_eq, hvalue]⟩
  · cases hw with
    | own hbase hwrite =>
        refine .inl ⟨rfl, fun {g} hg => set_of_ne _ (fun heq => ?_) _⟩
        obtain ⟨name, pointee, halloca⟩ := h.allocation hbase
        exact hp.apart halloca.isResult ⟨g, hg, heq⟩
    | shared hbase hwrite => exact .inr ⟨(Memory.write_counts hwrite).2, hshared, hhas'⟩

/-- A write through a pointer, after which variables are refreshed. -/
theorem refreshes (hp : p.UniqueIds) (h : (l.holdings w).Backed p)
    (hq : l.resolve w.memory src = .ok q) (hw : (l.holdings w).Writes q bytes d)
    (hd : d.Refreshes src q d') : d'.Backed p ∧ (l.holdings w).Spares p d' := by
  cases hd with
  | base _ hold ha => exact h.refreshed hp hw hold ha
  | derived hne hold ha hv _ =>
      obtain ⟨hbacked, hspares⟩ := h.refreshed hp hw hold ha
      rw [hw.values_eq] at hv
      obtain ⟨halloca, hglobal⟩ := h.apart_of_resolve hp hq hne (Option.isSome_of_eq_some hv)
      refine ⟨hbacked.set halloca hglobal _, hspares.imp_left fun hsame =>
        ⟨hsame.1, fun {g} hg => ?_⟩⟩
      rw [set_of_ne _ fun heq : g.id = src => hglobal ⟨g, hg, heq⟩]
      exact hsame.2 hg

/-- An allocation, whose variable is zero. -/
theorem allocate (hp : p.UniqueIds) (hi : p.HasInstr i) (hop : i.op = .alloca)
    (hid : i.result = some id) (hty : i.ty.pointee? = some pointee) (h : d.Backed p) :
    ({ d with own := d.own.allocate id pointee false }.set id
      (.zeroed (i.resultName id) pointee)).Backed p := by
  have hallocates : p.Allocates id (i.resultName id) pointee := .alloca hi hop hid rfl hty
  refine ⟨fun {x name ty} hx => ?_, fun {x} hx => ?_, fun {x q} hq => ?_, fun {x name ty} hx hown => ?_,
    h.shared, fun {g} hg => ?_⟩
  · show _ = ((d.own.allocate id pointee false).allocation? x).map _
    rw [Memory.allocation?_allocate]
    by_cases heq : x = id
    · subst heq
      cases hx with
      | alloca hj _ hjid hname hjty =>
          obtain rfl := hp.eq_of_result hi hj hid hjid
          cases hty.symm.trans hjty
          rw [if_pos rfl, set_self, ← hname]
          exact congrArg some (Variable.shows_zeroed _ _ _ fun b hb => List.eq_of_mem_replicate hb).symm
    · rw [if_neg heq, set_of_ne _ heq]
      exact h.alloca hx
  · replace hx : (d.own.allocate id pointee false).hasAllocation x := hx
    rw [Memory.hasAllocation_allocate, Bool.or_eq_true, decide_eq_true_eq] at hx
    rcases hx with rfl | hx
    · exact ⟨_, _, hallocates⟩
    · exact h.allocation hx
  · replace hq : (d.own.allocate id pointee false).pointer? x = some q := hq
    rw [Memory.pointer?_allocate] at hq
    split at hq
    · next heq => exact heq ▸ hallocates.isResult
    · exact h.isResult hq
  · replace hown : (d.own.allocate id pointee false).hasAllocation x := hown
    show ∃ q, (d.own.allocate id pointee false).pointer? x = some q ∧ q.base = x
    rw [Memory.hasAllocation_allocate, Bool.or_eq_true, decide_eq_true_eq] at hown
    rw [Memory.pointer?_allocate]
    by_cases heq : x = id
    · exact ⟨_, if_pos heq, heq.symm⟩
    · rw [if_neg heq]
      exact h.base hx (hown.resolve_left heq)
  · rw [set_of_ne _ fun heq : g.id = id => hp.apart hallocates.isResult ⟨g, hg, heq⟩]
    exact h.global hg

/-- A derived pointer. -/
theorem addPointer (hid : p.IsResult id) (halloca : ∀ {name pointee}, ¬ p.Allocates id name pointee)
    (h : d.Backed p) (q : Pointer) : ({ d with own := d.own.addPointer id q } : Holdings).Backed p := by
  refine ⟨h.alloca, h.allocation, fun {x q'} hq' => ?_, fun {x name ty} hx hown => ?_, h.shared, h.global⟩
  · replace hq' : (d.own.addPointer id q).pointer? x = some q' := hq'
    rw [Memory.pointer?_addPointer] at hq'
    split at hq'
    · next heq => exact heq ▸ hid
    · exact h.isResult hq'
  · show ∃ q', (d.own.addPointer id q).pointer? x = some q' ∧ q'.base = x
    rw [Memory.pointer?_addPointer, if_neg fun heq : x = id => halloca (heq ▸ hx)]
    exact h.base hx hown

/-- An instruction keeps variables backed by memory. -/
theorem of_does (hp : p.UniqueIds) (hi : p.HasInstr i) (hsize : l.cells.size = p.idCount)
    (h : (l.holdings w).Backed p) (hd : l.Does s i w d) : d.Backed p ∧ (l.holdings w).Spares p d := by
  -- the result of an instruction that does not allocate, and the output
  have hapart : ∀ {id}, i.op ≠ .alloca → i.result = some id ∨ id = l.outputId →
      (∀ {name pointee}, ¬ p.Allocates id name pointee) ∧ ¬ p.IsGlobal id := by
    rintro id hop (hid | rfl)
    · refine ⟨fun hallocates => ?_, hp.apart (hi.isResult hid)⟩
      cases hallocates with
      | alloca hj hjop hjid _ _ => exact hop (hp.eq_of_result hi hj hid hjid ▸ hjop)
    · have houtput : l.outputId = ⟨p.idCount + 1⟩ := by rw [Lane.outputId, hsize]
      exact ⟨fun hallocates => (hp.ne_reserved (.inl hallocates.isResult)).2 houtput,
        fun hglobal => (hp.ne_reserved (.inr hglobal)).2 houtput⟩
  have hset : ∀ {d₁ : Holdings} {id}, i.op ≠ .alloca → i.result = some id ∨ id = l.outputId →
      d₁.Backed p → (l.holdings w).Spares p d₁ → ∀ v, (d₁.set id v).Backed p ∧
        (l.holdings w).Spares p (d₁.set id v) := by
    intro d₁ id hop hid hbacked hspares v
    have hapart := hapart hop hid
    refine ⟨hbacked.set hapart.1 hapart.2 v, hspares.imp_left fun hsame =>
      ⟨hsame.1, fun {g} hg => ?_⟩⟩
    rw [set_of_ne _ fun heq : g.id = id => hapart.2 ⟨g, hg, heq⟩]
    exact hsame.2 hg
  have hsame : (l.holdings w).Spares p (l.holdings w) := .inl ⟨rfl, fun _ => rfl⟩
  cases hd with
  | rests _ => exact ⟨h, hsame⟩
  | gives hno hid _ =>
      refine hset (fun hop => hno ?_) hid h hsame _
      rw [Instr.usesMemory, hop]
  | @allocates id pointee hop hid hty =>
      refine ⟨h.allocate hp hi hop hid hty, .inl ⟨rfl, fun {g} hg => set_of_ne _ (fun heq => ?_) _⟩⟩
      exact hp.apart (hi.isResult hid) ⟨g, hg, heq⟩
  | loads hop hid _ _ _ =>
      exact hset (by rcases hop with hop | hop <;> rw [hop] <;> decide) (.inl hid) h hsame _
  | @derives id q bytes hop hid _ _ =>
      have hop' : i.op ≠ .alloca := by rw [hop]; decide
      have hpointer := h.addPointer (hi.isResult hid) (hapart hop' (.inl hid)).1 q
      exact hset hop' (.inl hid) hpointer (.inl ⟨rfl, fun _ => rfl⟩) _
  | stores _ _ hq _ hwrites hd => exact h.refreshes hp hq hwrites hd
  | updates hop _ hq _ _ _ hwrites hd =>
      obtain ⟨hbacked, hspares⟩ := h.refreshes hp hq hwrites hd
      cases hres : i.result with
      | none => exact ⟨hbacked, hspares⟩
      | some id =>
          refine hset (fun halloca => ?_) (.inl hres) hbacked hspares _
          rw [halloca] at hop
          cases hop

end Backed

end Holdings

end Lockstep
