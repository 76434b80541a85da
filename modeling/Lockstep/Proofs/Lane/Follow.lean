import Lockstep.Proofs.Lane.Report
import Lockstep.Proofs.Memory

set_option autoImplicit false

/-! # Steps that a watch window follows

Instructions that do not write to memory report nothing but marks before their result is assigned
(`Step.Still.instruction`). A store overwrites the allocation and the pointer, and reports both. So a
watch window that shows a lane can follow a step, and shows the lane afterwards
(`Lane.follows_of_step`). -/

namespace Lockstep

/-! ## Names -/

/-- The identifiers of a program with their names: global variables and results. -/
inductive Program.Names (p : Program) : Id → String → Prop
  | global {g : GlobalDecl} (hg : g ∈ p.globals) : Names p g.id g.name
  | result {f : Function} {i : Instr} {id : Id} (hf : f ∈ p.functions) (hi : i ∈ f.instrs)
      (hid : i.result = some id) : Names p id (i.resultName id)

/-- An identifier is that of a global variable. -/
def Program.IsGlobal (p : Program) (id : Id) : Prop := ∃ g ∈ p.globals, g.id = id

/-- An identifier is the result of an instruction. -/
def Program.IsResult (p : Program) (id : Id) : Prop :=
  ∃ f ∈ p.functions, ∃ i ∈ f.instrs, i.result = some id

/-- Variables are told apart by their names. -/
structure Program.WellNamed (p : Program) : Prop where
  distinct : Distinct p.Names
  index_lt : ∀ {id n}, p.Names id n → id.index < p.idCount
  apart : ∀ {id}, p.IsResult id → ¬ p.IsGlobal id
  globals : (p.globals.map (·.id)).Nodup

/-- Pointers of a lane's own memory are results, and so are its allocations. The shared memory has the
    global variables. -/
structure Program.Places (p : Program) (own shared : Memory) : Prop where
  pointer : ∀ {id q}, own.pointer? id = some q →
    p.IsResult id ∧ (p.IsResult q.base ∨ p.IsGlobal q.base)
  allocation : ∀ {id}, own.hasAllocation id → p.IsResult id
  shared : ∀ {id q}, shared.pointer? id = some q → p.IsGlobal id ∧ q.base = id

/-- A handle that an instruction assigns without a report: one that it annotates, or one that was set
    up under the name of its resource. -/
inductive Lane.Unreported (l : Lane) (s : Setting) (i : Instr) : Id → String → Prop
  | annotated {id : Id} (hop : i.intrinsic? = some .annotateHandle) (hid : i.result = some id) :
      Unreported l s i id (i.resultName id)
  | declared {op : Intrinsic} {id : Id} {v : Variable} (hop : i.intrinsic? = some op)
      (hcreates : op = .createHandle ∨ op = .createHandleFromBinding)
      (he : l.createHandle s i op = .ok (.assign id v false)) : Unreported l s i id v.name

/-- An identifier that an instruction gives a value: its result, or in a store the pointer and the
    allocation that it leads to. -/
inductive Lane.Writes (l : Lane) (shared : Memory) (i : Instr) : Id → Prop
  | result {id : Id} (hid : i.result = some id) : Writes l shared i id
  | pointer {id : Id} (hi : i.writesMemory) (hid : i.argId 0 = .ok id) : Writes l shared i id
  | base {id : Id} {q : Pointer} (hi : i.writesMemory) (hid : i.argId 0 = .ok id)
      (hq : l.resolve shared id = .ok q) : Writes l shared i q.base

/-- The names are left aside of what an instruction assigns without a report, and of what it gives a
    value after it was dropped. -/
structure Lane.LeavesAside (l : Lane) (names : Id → String → Prop) (aside : String → Prop)
    (s : Setting) (shared : Memory) (i : Instr) : Prop where
  unreported : ∀ {id n}, l.Unreported s i id n → aside n ∧ Scene.Hides names aside id
  dropped : ∀ {id}, l.Writes shared i id → l.Dropped id → Scene.Hides names aside id

namespace Lane

variable {l : Lane} {s : Setting} {shared : Memory} {i : Instr}

/-- The identifiers that an instruction gives a value. -/
def written (l : Lane) (shared : Memory) (i : Instr) : List Id :=
  i.result.toList ++
    if i.writesMemory then
      match i.argId 0 with
      | .error _ => []
      | .ok id =>
        match l.resolve shared id with
        | .error _ => [id]
        | .ok q => [id, q.base]
    else []

theorem mem_written {id : Id} (h : l.Writes shared i id) : id ∈ l.written shared i := by
  unfold written
  cases h with
  | result hid => simp [hid]
  | pointer hi hid =>
      rw [if_pos hi, hid]
      dsimp only
      split <;> simp
  | base hi hid hq =>
      rw [if_pos hi, hid]
      dsimp only
      rw [hq]
      simp

/-- An instruction that makes no handle and gives no dropped identifier a value leaves nothing aside. -/
theorem leavesAside_of_written {names : Id → String → Prop} {aside : String → Prop}
    (hop : i.intrinsic? ∉ [some .annotateHandle, some .createHandle, some .createHandleFromBinding])
    (hdropped : ∀ id ∈ l.written shared i, ¬ l.Dropped id) : l.LeavesAside names aside s shared i := by
  refine ⟨fun h => ?_, fun h hid => absurd hid (hdropped _ (mem_written h))⟩
  cases h with
  | annotated h => simp [h] at hop
  | declared h hcreates =>
      rcases hcreates with rfl | rfl
      · simp [h] at hop
      · simp [h] at hop

end Lane

/-- A lane executes an instruction of a program whose variables are told apart. -/
structure Program.Watchable (p : Program) (i : Instr) (l : Lane) : Prop where
  wellNamed : p.WellNamed
  size : l.cells.size = p.idCount
  mem : ∃ f ∈ p.functions, i ∈ f.instrs

namespace Program

variable {p : Program} {id : Id}

/-- The identifiers of a program with their names, in order. -/
def named (p : Program) : List (Id × String) :=
  p.globals.map (fun g => (g.id, g.name)) ++
    p.functions.toList.flatMap fun f => f.instrs.toList.filterMap fun i =>
      i.result.map fun id => (id, i.resultName id)

/-- The results of a program's instructions, in order. -/
def results (p : Program) : List Id :=
  p.functions.toList.flatMap fun f => f.instrs.toList.filterMap Instr.result

theorem names_iff {n : String} : p.Names id n ↔ (id, n) ∈ p.named := by
  simp only [named, List.mem_append, List.mem_map, List.mem_flatMap, List.mem_filterMap,
    Option.map_eq_some_iff, Array.mem_toList_iff, Prod.mk.injEq]
  constructor
  · rintro (⟨hg⟩ | ⟨hf, hi, hid⟩)
    · exact .inl ⟨_, hg, rfl, rfl⟩
    · exact .inr ⟨_, hf, _, hi, _, hid, rfl, rfl⟩
  · rintro (⟨g, hg, rfl, rfl⟩ | ⟨f, hf, i, hi, id, hid, rfl, rfl⟩)
    · exact .global hg
    · exact .result hf hi hid

theorem isResult_iff : p.IsResult id ↔ id ∈ p.results := by
  simp [results, IsResult]

theorem wellNamed_iff : p.WellNamed ↔
    (∀ x ∈ p.named, x.1.index < p.idCount ∧ ∀ y ∈ p.named, x.1 = y.1 ↔ x.2 = y.2) ∧
      (∀ id ∈ p.results, ∀ g ∈ p.globals, g.id ≠ id) ∧ (p.globals.map (·.id)).Nodup := by
  constructor
  · intro h
    refine ⟨fun x hx => ⟨h.index_lt (names_iff.2 hx), fun y hy => ?_⟩, ?_, h.globals⟩
    · have hx' : p.Names x.1 x.2 := names_iff.2 hx
      have hy' : p.Names y.1 y.2 := names_iff.2 hy
      exact ⟨fun heq => h.distinct.name_eq (heq ▸ hy') (heq ▸ hx'),
        fun heq => h.distinct.id_eq (heq ▸ hy') (heq ▸ hx')⟩
    · exact fun id hid g hg heq => h.apart (isResult_iff.2 hid) ⟨g, hg, heq⟩
  · rintro ⟨hnamed, hapart, hglobals⟩
    refine ⟨⟨fun h h' => ?_, fun h h' => ?_⟩, fun h => (hnamed _ (names_iff.1 h)).1, ?_, hglobals⟩
    · exact ((hnamed _ (names_iff.1 h')).2 _ (names_iff.1 h)).2 rfl
    · exact ((hnamed _ (names_iff.1 h')).2 _ (names_iff.1 h)).1 rfl
    · rintro id hid ⟨g, hg, heq⟩
      exact hapart id (isResult_iff.1 hid) g hg heq

instance : Decidable p.WellNamed := decidable_of_iff _ wellNamed_iff.symm

theorem Watchable.isResult {i : Instr} {l : Lane} (h : p.Watchable i l)
    (hid : i.result = some id) : p.IsResult id := by
  obtain ⟨f, hf, hi⟩ := h.mem
  exact ⟨f, hf, i, hi, hid⟩

theorem Watchable.named {i : Instr} {l : Lane} (h : p.Watchable i l)
    (hid : i.result = some id) : p.Names id (i.resultName id) := by
  obtain ⟨f, hf, hi⟩ := h.mem
  exact .result hf hi hid

theorem WellNamed.index_lt_of_result (h : p.WellNamed) (hid : p.IsResult id) :
    id.index < p.idCount := by
  obtain ⟨f, hf, i, hi, hid⟩ := hid
  exact h.index_lt (.result hf hi hid)

theorem WellNamed.index_lt_of_global (h : p.WellNamed) (hid : p.IsGlobal id) :
    id.index < p.idCount := by
  obtain ⟨g, hg, rfl⟩ := hid
  exact h.index_lt (.global hg)

namespace Places

variable {own own' shared shared' : Memory}

theorem allocate (h : p.Places own shared) (hid : p.IsResult id) (pointee : Ty) (isGlobal : Bool) :
    p.Places (own.allocate id pointee isGlobal) shared := by
  refine ⟨fun {x q} hq => ?_, fun {x} hx => ?_, h.shared⟩
  · rw [Memory.pointer?_allocate] at hq
    split at hq
    · next heq =>
        cases hq
        exact ⟨heq ▸ hid, .inl hid⟩
    · exact h.pointer hq
  · rw [Memory.hasAllocation_allocate, Bool.or_eq_true, decide_eq_true_eq] at hx
    rcases hx with rfl | hx
    · exact hid
    · exact h.allocation hx

theorem addPointer (h : p.Places own shared) (hid : p.IsResult id) {q : Pointer}
    (hq : p.IsResult q.base ∨ p.IsGlobal q.base) : p.Places (own.addPointer id q) shared := by
  refine ⟨fun {x q'} hq' => ?_, h.allocation, h.shared⟩
  rw [Memory.pointer?_addPointer] at hq'
  split at hq'
  · next heq =>
      cases hq'
      exact ⟨heq ▸ hid, hq⟩
  · exact h.pointer hq'

/-- A pointer that a lane can resolve leads to an identifier of the program. -/
theorem of_resolve {l : Lane} (h : p.Places l.memory shared) {q : Pointer}
    (hq : l.resolve shared id = .ok q) :
    (p.IsResult id ∧ (p.IsResult q.base ∨ p.IsGlobal q.base)) ∨ (p.IsGlobal id ∧ q.base = id) := by
  unfold Lane.resolve at hq
  split at hq
  · next q' hq' =>
      cases hq
      rcases (Option.orElse_eq_some ..).1 hq' with hq' | ⟨-, hq'⟩
      · exact .inl (h.pointer hq')
      · exact .inr (h.shared hq')
  · cases hq

end Places

end Program

/-! ## Instructions that write nothing -/

namespace Step

variable {names : Id → String → Prop} {aside : String → Prop} {p : Program} {s : Setting} {i : Instr}
  {l₀ : Lane} {shared₀ : Memory} {m m' : Machine}

/-- Nothing has been done to what a watch window shows, and nothing but marks has been reported. -/
structure Still (p : Program) (i : Instr) (l₀ : Lane) (shared₀ : Memory) (m : Machine) : Prop where
  lane : m.lane = { l₀ with
    instr := m.lane.instr, globalInstr := m.lane.globalInstr, memory := m.lane.memory
    references := m.lane.references, properties := m.lane.properties, accessed := m.lane.accessed }
  marks : ∀ c ∈ m.changes, c.isMark i
  memory : m.world.memory = shared₀
  places : p.Places m.lane.memory shared₀

/-- What an effect leaves to be done fits, and does not touch global variables. -/
structure Fits (names : Id → String → Prop) (aside : String → Prop) (p : Program) (i : Instr)
    (l₀ : Lane) (e : Effect) : Prop where
  reportable : Reportable names aside i l₀ (.effect e)
  spares : ∀ {id v report}, e = .assign id v report → ¬ p.IsGlobal id

/-- One machine twice. -/
def Twice (P : Machine → Prop) (m n : Machine) : Prop := n = m ∧ P m

namespace Still

theorem modifyLane {f : Lane → Lane} (hlane : ∀ l, f l = { l with
      memory := (f l).memory, references := (f l).references, properties := (f l).properties
      accessed := (f l).accessed })
    (hplaces : ∀ l, p.Places l.memory shared₀ → p.Places (f l).memory shared₀) :
    Sim (Twice (Still p i l₀ shared₀)) Eq (Step.modifyLane f) (Step.modifyLane f) := by
  refine .modifyLane fun {m n} ⟨hmn, hm⟩ => ⟨hmn ▸ rfl, ?_, hm.marks, hm.memory, hplaces _ hm.places⟩
  show f m.lane = _
  rw [hlane m.lane, hm.lane]

theorem onWorld {α : Type} {f : World → α × World} (hf : ∀ w, (f w).2.memory = w.memory) :
    Sim (Twice (Still p i l₀ shared₀)) Eq (Step.onWorld f) (Step.onWorld f) := by
  constructor
  rintro m _ a m' ⟨rfl, hm⟩ hok
  cases hok
  exact ⟨_, _, rfl, rfl, rfl, hm.lane, hm.marks, (hf _).trans hm.memory, hm.places⟩

theorem note {c : Change} (hc : c.isMark i) :
    Sim (Twice (Still p i l₀ shared₀)) Eq (Step.note c) (Step.note c) := by
  refine .note fun {m n} ⟨hmn, hm⟩ => ⟨hmn ▸ rfl, hm.lane, fun c' hc' => ?_, hm.memory, hm.places⟩
  rcases Array.mem_push.1 hc' with hc' | rfl
  · exact hm.marks c' hc'
  · exact hc

theorem noteUse {op : Intrinsic} (hop : i.intrinsic? = some op) (huses : op.usesHandle) (name : String)
    (ref : ResourceRef) :
    Sim (Twice (Still p i l₀ shared₀)) Eq (Step.noteUse s name ref) (Step.noteUse s name ref) := by
  unfold Step.noteUse
  refine .ite (fun hshown => ?_) fun _ => .pure rfl
  have hres : ref.cls.elem.isResource := by
    simp only [Bool.and_eq_true, Bool.or_eq_true, beq_iff_eq] at hshown
    rcases hshown.2 with hcls | hcls
    · rw [hcls]
      rfl
    · rw [hcls]
      rfl
  have hmark : ∀ before, Change.isMark i
      { before, after := some (Variable.handle name ref.cls.elem ref.slot) } := by
    intro before
    rw [Change.isMark, hop]
    exact Bool.and_eq_true_iff.2 ⟨huses, hres⟩
  refine .ofLane fun {m n} hm => ?_
  obtain ⟨rfl, -⟩ := hm
  refine .ite (fun _ => Still.note (hmark _)) fun _ => .next ?_ fun _ => Still.note (hmark _)
  exact Still.modifyLane (fun _ => rfl) fun _ h => h

/-- A value of the result, under its name. -/
theorem fits_result (hp : p.Watchable i l₀) (hside : l₀.LeavesAside p.Names aside s shared₀ i)
    {id : Id} {v : Variable} (hid : i.result = some id) (hname : v.name = i.resultName id)
    (hmark : i.intrinsic?.any Intrinsic.usesHandle → ¬ v.elem.isResource) :
    Fits p.Names aside p i l₀ (.value id v) := by
  have hresult := hp.isResult hid
  refine ⟨.value ?_ (.inl (hname ▸ hp.named hid)) (hside.dropped (.result hid)) hmark, ?_⟩
  · exact hp.size ▸ hp.wellNamed.index_lt_of_result hresult
  · rintro _ _ _ ⟨⟩
    exact hp.wellNamed.apart hresult

/-- A handle that is assigned without a report. -/
theorem fits_silent (hp : p.Watchable i l₀) (hside : l₀.LeavesAside p.Names aside s shared₀ i)
    {id : Id} {v : Variable} (hid : i.result = some id)
    (hsilent : Silently (Twice (Still p i l₀ shared₀)) s i id v) :
    Fits p.Names aside p i l₀ (.assign id v false) := by
  have hresult := hp.isResult hid
  have hunreported : l₀.Unreported s i id v.name := by
    cases hsilent with
    | annotated hop hname => exact hname ▸ .annotated hop hid
    | declared hR hop hcreates he =>
        rw [hR.2.lane] at he
        exact .declared hop hcreates he
  obtain ⟨haside, hhides⟩ := hside.unreported hunreported
  refine ⟨.silent (hp.size ▸ hp.wellNamed.index_lt_of_result hresult) hhides haside, ?_⟩
  rintro _ _ _ ⟨⟩
  exact hp.wellNamed.apart hresult

/-- The output keeps its name. -/
theorem fits_output (hp : p.Watchable i l₀) (houtput : aside l₀.output.name)
    (hop : i.intrinsic? = some .storeOutput) {e : Effect} (hm : Still p i l₀ shared₀ m)
    (he : m.lane.storeOutput i s.recording = .ok e) : Fits p.Names aside p i l₀ e := by
  rw [hm.lane] at he
  rcases Lane.storeOutput_ok he with rfl | ⟨members, rfl⟩
  · exact ⟨.proceed, fun h => nomatch h⟩
  · refine ⟨.output hop houtput, ?_⟩
    rintro _ _ _ ⟨⟩ hglobal
    have hlt := hp.wellNamed.index_lt_of_global hglobal
    rw [← hp.size] at hlt
    exact absurd hlt (by simp [Lane.outputId])

/-- What an instruction that writes nothing reads and does. -/
theorem mirror (hp : p.Watchable i l₀) (hside : l₀.LeavesAside p.Names aside s shared₀ i)
    (houtput : aside l₀.output.name) (hwrites : ¬ i.writesMemory) :
    Mirror (Twice (Still p i l₀ shared₀)) (fun e e' => e' = e ∧ Fits p.Names aside p i l₀ e)
      (fun q => p.IsResult q.base ∨ p.IsGlobal q.base) s s i where
  program := rfl
  bindings := rfl
  agrees h := h.1 ▸ .refl ..
  memory h := h.1 ▸ rfl
  group _ _ _ _ h := h.1 ▸ .refl ..
  pointer h hid hq := by
    have hplaces := h.2.places
    rw [← h.2.memory] at hplaces
    rcases hplaces.of_resolve hq with ⟨-, hbase⟩ | ⟨hglobal, hbase⟩
    · exact hbase
    · exact .inr (hbase ▸ hglobal)
  base h _ := h.1 ▸ rfl
  ask r := Still.onWorld fun _ => rfl
  srv slot := Still.onWorld fun _ => World.memory_srv ..
  uav slot := Still.onWorld fun _ => World.memory_uav ..
  setUav _ _ _ _ :=
    .modifyWorld fun h => ⟨h.1 ▸ rfl, h.2.lane, h.2.marks, h.2.memory, h.2.places⟩
  raise e := .raise fun h => ⟨h.1 ▸ rfl, h.2.lane, h.2.marks, h.2.memory, h.2.places⟩
  noteUse hop huses name ref := Still.noteUse hop huses name ref
  refer id ref := Still.modifyLane (fun _ => rfl) fun _ h => h
  describe id properties := Still.modifyLane (fun _ => rfl) fun _ h => h
  allocate _ hid pointee := Still.modifyLane (fun _ => rfl) fun _ h =>
    h.allocate (hp.isResult hid) pointee false
  addPointer _ hid hq hbase := Still.modifyLane (fun _ => rfl) fun _ h =>
    h.addPointer (hp.isResult hid) (hbase ▸ hq)
  write hi := absurd hi hwrites
  overwrite hi := absurd hi hwrites
  proceed _ := ⟨rfl, .proceed, fun h => nomatch h⟩
  gives hno e he := by
    refine ⟨rfl, ?_⟩
    cases he with
    | proceed _ => exact ⟨.proceed, fun h => nomatch h⟩
    | kill => exact ⟨.kill, fun h => nomatch h⟩
    | value id v hid hname =>
        refine fits_result hp hside hid hname fun huses => ?_
        obtain ⟨op, hop, huses⟩ := (Option.any_eq_true _ _).1 huses
        exact absurd huses (hno op hop)
  loaded _ _ _ _ hid hname helem := ⟨rfl, fits_result hp hside hid hname fun _ => helem⟩
  silent _ _ _ _ hid hsilent := ⟨rfl, fits_silent hp hside hid hsilent⟩
  stored hi := absurd hi hwrites
  output hop m n h e he := ⟨e, h.1 ▸ he, rfl, fits_output hp houtput hop h.2 he⟩

/-- An instruction that writes nothing leaves what a window shows as it is, and what it leaves to be
    done fits. -/
theorem of_instruction (hp : p.Watchable i l₀) (hside : l₀.LeavesAside p.Names aside s shared₀ i)
    (houtput : aside l₀.output.name) (hwrites : ¬ i.writesMemory) (hm : Still p i l₀ shared₀ m)
    {o : Outcome} (hok : (Step.instruction s i).on m = (.ok o, m')) :
    Still p i l₀ shared₀ m' ∧ Reportable p.Names aside i l₀ o ∧
      ∀ {id v report}, o = .effect (.assign id v report) → ¬ p.IsGlobal id := by
  obtain ⟨o', n', hok', houtcomes, rfl, hm'⟩ :=
    (mirror hp hside houtput hwrites).instruction.ok ⟨rfl, hm⟩ hok
  refine ⟨hm', ?_⟩
  cases houtcomes with
  | effect _ he =>
      refine ⟨he.2.reportable, ?_⟩
      rintro _ _ _ ⟨⟩
      exact he.2.spares rfl
  | terminate _ ho =>
      rcases ho with ⟨b, -, rfl⟩ | rfl | rfl
      · exact ⟨.jump b, fun h => nomatch h⟩
      · exact ⟨.leave, fun h => nomatch h⟩
      · exact ⟨.kill, fun h => nomatch h⟩

end Still

end Step

end Lockstep
