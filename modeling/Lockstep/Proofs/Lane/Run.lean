import Lockstep.Proofs.Analysis
import Lockstep.Proofs.Lane.Place
import Lockstep.Proofs.Memory

set_option autoImplicit false

/-! # Runs of a lane

A run of a lane enters the program and goes on by steps, whatever the host answers and whatever the
other lanes do, by reading the global variables again, and by moving past markers. While the lane is
not finished, it is at a sound place of the entry function (`Run.sound`). -/

namespace Lockstep

namespace Lane

/-- The lanes that a run can come to. -/
inductive Run (p : Program) (b : Bindings) (as : Analyses) (liveGlobals : Array Bool) : Lane → Prop
  | entered {index : Nat} {init : LaneInit} {l : Lane}
      (h : (Lane.new index p init).enter p b as liveGlobals = (.ok (), l)) :
      Run p b as liveGlobals l
  | stepped {l : Lane} {s : Setting} {w : World} {state : StepState}
      (hl : Run p b as liveGlobals l) (hp : s.program = p) (has : s.analyses = as)
      (h : (l.step s w).result = .ok state) : Run p b as liveGlobals (l.step s w).lane
  | refreshed {l l' : Lane} {memory : Memory} (hl : Run p b as liveGlobals l)
      (h : l.refreshGlobals memory b.globals = (.ok (), l')) : Run p b as liveGlobals l'
  | skipped {l : Lane} (hl : Run p b as liveGlobals l) : Run p b as liveGlobals (l.skipNops p)

/-! ## Entering and refreshing -/

/-- What reading one global variable again keeps, reading them all keeps, also up to one that is not found. -/
theorem refreshGlobals_induction {P : Lane → Prop} {l : Lane} {memory : Memory} {gs : List GlobalVar} (h : P l)
    (hassign : ∀ {l : Lane} {g v a}, g ∈ gs → l.value? g.id = some v → memory.allocation? g.id = some a →
      P l → P (l.assign g.id (v.ofBytes a.bytes))) :
    P (l.refreshGlobals memory gs).2 := by
  induction gs generalizing l with
  | nil => exact h
  | cons g gs ih =>
      have hrest : ∀ {l : Lane}, P l → P (l.refreshGlobals memory gs).2 :=
        fun h => ih h fun hg => hassign (List.mem_cons_of_mem _ hg)
      rw [refreshGlobals]
      split
      · exact hrest h
      · next v hv =>
          split
          · exact h
          · next v' hreload =>
              obtain ⟨a, ha, rfl⟩ := Memory.reload_ok hreload
              exact hrest (hassign List.mem_cons_self hv ha h)

/-- What assigning one global variable keeps, assigning them all keeps, also up to one that has no place. -/
theorem bindGlobals_induction {P : Lane → Prop} {l : Lane} {gs : List GlobalVar} (h : P l)
    (hassign : ∀ {l : Lane} {g}, g ∈ gs → P l → P (l.assign g.id g.value)) : P (l.bindGlobals gs).1 := by
  induction gs generalizing l with
  | nil => exact h
  | cons g gs ih =>
      rw [bindGlobals]
      split
      · exact ih (hassign List.mem_cons_self h) fun hg => hassign (List.mem_cons_of_mem _ hg)
      · exact h

theorem frame_refreshGlobals (l : Lane) (memory : Memory) (gs : List GlobalVar) :
    (l.refreshGlobals memory gs).2.frame = l.frame :=
  refreshGlobals_induction (P := fun l' => l'.frame = l.frame) rfl fun _ hv _ h =>
    (frame_assign _ _ (by rw [hv]; rfl)).trans h

theorem memory_refreshGlobals (l : Lane) (memory : Memory) (gs : List GlobalVar) :
    (l.refreshGlobals memory gs).2.memory = l.memory :=
  refreshGlobals_induction (P := fun l' => l'.memory = l.memory) rfl fun _ _ _ h => (memory_assign ..).trans h

theorem place_bindGlobals (l : Lane) (gs : List GlobalVar) :
    (l.bindGlobals gs).1.place = l.place :=
  bindGlobals_induction (P := fun l' => l'.place = l.place) rfl fun _ h => (place_assign ..).trans h

/-- The lane that entering gives before it moves past markers. -/
theorem eq_of_enter {l l' : Lane} {p : Program} {b : Bindings} {as : Analyses}
    {liveGlobals : Array Bool} (h : l.enter p b as liveGlobals = (.ok (), l')) :
    ∃ a l₁, as.of? p.entry = some a ∧ l.bindGlobals b.globals = (l₁, none) ∧
      l' = ({ l₁ with
        function := p.entry, instr := 0, globalInstr := a.offset, block := 0
        previousBlock := noBlock, phiValues := .empty
        isEntered := true }.scopeGlobals liveGlobals).skipNops p := by
  unfold enter at h
  split at h
  · cases h
  · next l₁ hbind =>
      unfold enterFunction at h
      split at h
      · cases h
      · next l₂ hl₂ =>
          cases h
          split at hl₂
          · cases hl₂
          · next a ha =>
              cases hl₂
              exact ⟨a, l₁, ha, hbind, rfl⟩

/-- Entering the program leaves the memory of a lane as it was, also when that fails. -/
theorem memory_enter (l : Lane) (p : Program) (b : Bindings) (as : Analyses) (liveGlobals : Array Bool) :
    (l.enter p b as liveGlobals).2.cells.size = l.cells.size ∧
      (l.enter p b as liveGlobals).2.memory = l.memory := by
  have hbound : (l.bindGlobals b.globals).1.cells.size = l.cells.size ∧
      (l.bindGlobals b.globals).1.memory = l.memory :=
    bindGlobals_induction (P := fun l' => l'.cells.size = l.cells.size ∧ l'.memory = l.memory) ⟨rfl, rfl⟩
      fun _ h => ⟨(size_assign ..).trans h.1, (memory_assign ..).trans h.2⟩
  unfold enter
  split
  · next heq => rwa [heq] at hbound
  · next l₁ heq =>
      rw [heq] at hbound
      unfold enterFunction
      split
      · next hentered =>
          split at hentered
          · exact hbound
          · cases hentered
      · next hentered =>
          split at hentered
          · cases hentered
          · cases hentered
            rw [cells_skipNops, memory_skipNops]
            exact ⟨Array.size_mapIdx.trans hbound.1, hbound.2⟩

theorem memory_of_enter {l l' : Lane} {p : Program} {b : Bindings} {as : Analyses}
    {liveGlobals : Array Bool} (h : l.enter p b as liveGlobals = (.ok (), l')) :
    l'.cells.size = l.cells.size ∧ l'.memory = l.memory := by
  have hmemory := l.memory_enter p b as liveGlobals
  rwa [h] at hmemory

/-- A lane that has entered the program has moved from its start past markers. -/
theorem place_of_enter {index : Nat} {init : LaneInit} {l : Lane} {p : Program} {b : Bindings}
    {as : Analyses} {liveGlobals : Array Bool}
    (h : (Lane.new index p init).enter p b as liveGlobals = (.ok (), l)) :
    ∃ a, ∃ l₁ : Lane, as.of? p.entry = some a ∧ l = l₁.skipNops p ∧
      l₁.place = ⟨p.entry, 0, 0, a.offset, 0, false, false, true⟩ := by
  obtain ⟨a, l₁, ha, hbind, rfl⟩ := eq_of_enter h
  have hplace := place_bindGlobals (Lane.new index p init) b.globals
  rw [hbind] at hplace
  refine ⟨a, _, ha, rfl, ?_⟩
  obtain ⟨hactive, hkilled, hended⟩ :
      l₁.activeInstr = 0 ∧ l₁.isKilled = false ∧ l₁.isEnded = false :=
    ⟨congrArg Place.activeInstr hplace, congrArg Place.isKilled hplace,
      congrArg Place.isEnded hplace⟩
  show Place.mk p.entry 0 0 a.offset l₁.activeInstr l₁.isKilled l₁.isEnded true = _
  rw [hactive, hkilled, hended]

/-- A lane that cannot enter the program stays where it is. -/
theorem place_of_enter_error {l l' : Lane} {p : Program} {b : Bindings} {as : Analyses}
    {liveGlobals : Array Bool} {fault : Fault} (h : l.enter p b as liveGlobals = (.error fault, l')) :
    l'.place = l.place := by
  have hbind := place_bindGlobals l b.globals
  unfold enter at h
  split at h
  · next l₁ _ heq =>
      cases h
      rwa [heq] at hbind
  · next l₁ heq =>
      rw [heq] at hbind
      split at h
      · cases h
        exact hbind
      · cases h

/-- The function that a run enters has been analysed. -/
theorem Run.analysed {p : Program} {b : Bindings} {as : Analyses} {liveGlobals : Array Bool} {l : Lane}
    (h : Run p b as liveGlobals l) : ∃ a, as.of? p.entry = some a := by
  induction h with
  | entered h =>
      obtain ⟨a, _, ha, -⟩ := place_of_enter h
      exact ⟨a, ha⟩
  | stepped _ _ _ _ ih => exact ih
  | refreshed _ _ ih => exact ih
  | skipped _ ih => exact ih

/-! ## Steps and refreshes -/

/-- A lane and what a step that succeeds makes of it. -/
def Stepping (p : Program) (as : Analyses) (l l' : Lane) : Prop :=
  ∃ (s : Setting) (w : World) (state : StepState), s.program = p ∧ s.analyses = as ∧
    (l.step s w).result = .ok state ∧ (l.step s w).lane = l'

/-- A lane, and the lane after it may have read the global variables again. -/
def Refreshing (globals : List GlobalVar) : Lane → Lane → Prop :=
  Relation.ReflTransGen fun l l' => ∃ memory, l.refreshGlobals memory globals = (.ok (), l')

theorem Refreshing.frame_eq {globals : List GlobalVar} {l l' : Lane}
    (h : Refreshing globals l l') : l'.frame = l.frame := by
  induction h with
  | refl => rfl
  | @tail l₁ l₂ _ h ih =>
      obtain ⟨memory, h⟩ := h
      have hframe := frame_refreshGlobals l₁ memory globals
      rw [h] at hframe
      exact hframe.trans ih

theorem Refreshing.run {p : Program} {b : Bindings} {as : Analyses} {liveGlobals : Array Bool}
    {l l' : Lane} (h : Refreshing b.globals l l') (hl : l.Run p b as liveGlobals) :
    l'.Run p b as liveGlobals := by
  induction h with
  | refl => exact hl
  | tail _ h ih =>
      obtain ⟨memory, h⟩ := h
      exact .refreshed ih h

/-! ## Places -/

variable {p : Program} {b : Bindings} {as : Analyses} {liveGlobals : Array Bool} {f : Function}
  {a : FunctionAnalysis} {l : Lane}

/-- Moving past markers leaves a lane where it is if it is finished, and else takes it past those at its
    place. -/
theorem skipNops_cases (he : p.Enters as f a) (hfunction : l.function = p.entry) :
    (l.skipNops p).place = l.place ∨
      ∃ n, (∀ j < n, atNop f (l.instr + j)) ∧ (l.skipNops p).place = l.place.skip n := by
  by_cases hl : l.isFinished
  · rw [skipNops, if_pos hl]
    exact .inl rfl
  · have hfun : p.functions[l.function]? = some f := by rw [hfunction, he.function]
    exact .inr ⟨_, fun _ => atNop_of_lt_nopsFrom, place_skipNops hl hfun⟩

/-- What markers leave true of a place is true where a lane has moved past them. -/
theorem place_skipNops_of {P : Place → Prop} (he : p.Enters as f a) (hfunction : l.function = p.entry)
    (hskip : ∀ {n}, (∀ j < n, atNop f (l.instr + j)) → P (l.place.skip n)) (h : P l.place) :
    P (l.skipNops p).place := by
  rcases skipNops_cases he hfunction with hplace | ⟨n, hn, hplace⟩
  · rwa [hplace]
  · rw [hplace]
    exact hskip hn

theorem numbered_skipNops (he : p.Enters as f a) (h : l.place.Numbered f a p.entry) :
    (l.skipNops p).place.Numbered f a p.entry :=
  place_skipNops_of he h.function h.skip h

theorem sound_skipNops (he : p.Entry as f a) (h : l.place.Sound f a p.entry) :
    (l.skipNops p).place.Sound f a p.entry :=
  place_skipNops_of he.enters h.function h.skip h

theorem isFinished_of_stop (h : l.place.isKilled ∨ l.place.isEnded) : l.isFinished := by
  unfold isFinished
  rcases h with h | h
  · rw [show l.isKilled = true from h]
    rfl
  · rw [show l.isEnded = true from h, Bool.or_true]
    rfl

theorem step_of_isFinished (hl : l.isFinished) (s : Setting) (w : World) :
    (l.step s w).lane = l := by
  rw [step, if_pos hl]

/-- The instruction that a lane in the entry function executes next is the one at its place. -/
theorem instr_of_nextInstr (he : p.Enters as f a) (hfunction : l.function = p.entry)
    {a' : FunctionAnalysis} {i : Instr} (h : l.nextInstr p as = .ok (a', i)) :
    a' = a ∧ f.instrs[l.instr]? = some i := by
  obtain ⟨ha', f', hf', hi⟩ := nextInstr_eq_ok h
  rw [hfunction, he.analysis] at ha'
  rw [hfunction, he.function] at hf'
  cases ha'
  cases hf'
  exact ⟨rfl, hi⟩

/-- A lane in the entry function executes the instruction at its place. -/
theorem next_of_step (he : p.Enters as f a) (hfunction : l.function = p.entry) {s : Setting}
    {w : World} {state : StepState} (hl : ¬ l.isFinished) (hp : s.program = p) (has : s.analyses = as)
    (h : (l.step s w).result = .ok state) :
    ∃ i, l.nextInstr p as = .ok (a, i) ∧ f.instrs[l.instr]? = some i ∧
      l.place.Next a i (l.step s w).lane.place := by
  obtain ⟨a', i, hnext, hplace⟩ := place_of_step hl h
  rw [hp, has] at hnext
  obtain ⟨rfl, hi⟩ := instr_of_nextInstr he hfunction hnext
  exact ⟨i, hnext, hi, hplace⟩

/-- What is true of the start of the entry function, and stays so as instructions and markers move a lane,
    is true of the place of a lane that is not finished. -/
theorem Run.place_induction {P : Place → Prop} (he : p.Enters as f a)
    (hfunction : ∀ {q}, P q → q.function = p.entry)
    (hstart : P ⟨p.entry, 0, 0, a.offset, 0, false, false, true⟩)
    (hnext : ∀ {q q' i}, P q → f.instrs[q.instr]? = some i → q.Next a i q' →
      ¬ (q'.isKilled ∨ q'.isEnded) → P q')
    (hskip : ∀ {q n}, P q → (∀ j < n, atNop f (q.instr + j)) → P (q.skip n))
    (h : Run p b as liveGlobals l) (hl : ¬ l.isFinished) : P l.place := by
  have hmarkers : ∀ {l : Lane}, P l.place → P (l.skipNops p).place := fun hl =>
    place_skipNops_of he (hfunction hl) (hskip hl) hl
  induction h with
  | entered h =>
      obtain ⟨a', l₁, ha', rfl, hplace⟩ := place_of_enter h
      obtain rfl : a = a' := Option.some.inj (he.analysis.symm.trans ha')
      exact hmarkers (hplace ▸ hstart)
  | @stepped l s w state _ hp has h ih =>
      by_cases hfin : l.isFinished
      -- a lane that has finished does not step, and remains finished
      · rw [step_of_isFinished hfin] at hl ⊢
        exact ih hl
      · obtain ⟨i, -, hi, hplace⟩ := next_of_step he (hfunction (ih hfin)) hfin hp has h
        exact hnext (ih hfin) hi hplace fun hstop => hl (isFinished_of_stop hstop)
  | @refreshed l l' memory _ h ih =>
      have hframe := frame_refreshGlobals l memory b.globals
      rw [h] at hframe
      rw [isFinished_of_place (place_of_frame hframe)] at hl
      rw [place_of_frame hframe]
      exact ih hl
  | skipped _ ih =>
      rw [isFinished_skipNops] at hl
      exact hmarkers (ih hl)

/-- A lane that is not finished is at a sound place of the entry function. -/
theorem Run.sound (he : p.Entry as f a) (h : Run p b as liveGlobals l) (hl : ¬ l.isFinished) :
    l.place.Sound f a p.entry :=
  h.place_induction he.enters Place.Sound.function ⟨rfl, rfl, rfl, .refl⟩
    (fun hq => hq.next he.targets he.describes.starts) (fun hq => hq.skip) hl

/-! ## What a lane is made with -/

/-- What a lane is made with and keeps: its stage, and how many identifiers it has places for. -/
def build (l : Lane) : Stage × Nat := (l.stage, l.cells.size)

theorem build_of_frame {l' : Lane} (h : l'.frame = l.frame) : l'.build = l.build :=
  Prod.ext (show l'.frame.stage = l.frame.stage from congrArg stage h) (size_cells_of_frame h)

theorem build_assign (id : Id) (v : Variable) : (l.assign id v).build = l.build := by
  obtain ⟨_, _, _, hsize, h⟩ := assign_eq l id v
  rw [h]
  exact Prod.ext rfl hsize

theorem build_retire (keep : Option Id) : (l.retire a keep).build = l.build :=
  Prod.ext rfl Array.size_mapIdx

theorem build_skipNops (p : Program) : (l.skipNops p).build = l.build := by
  obtain ⟨_, _, _, h⟩ := skipNops_eq l p
  rw [h]
  rfl

theorem build_of_step {s : Setting} {w : World} {state : StepState}
    (h : (l.step s w).result = .ok state) : (l.step s w).lane.build = l.build := by
  by_cases hfin : l.isFinished
  · rw [step_of_isFinished hfin]
  · obtain ⟨a, i, l₁, -, hframe, hconcludes⟩ := step_cases hfin h
    refine Eq.trans ?_ (build_of_frame hframe : l₁.build = l.advanced.build)
    generalize (l.step s w).lane = l' at hconcludes ⊢
    cases hconcludes with
    | proceed _ => exact build_retire _
    | assign id v _ _ =>
        have hscope : ∀ l : Lane, (l.bringIntoScope id).build = l.build :=
          fun _ => Prod.ext rfl Array.size_modify
        rw [hscope, build_assign, build_retire]
    | jump b l' _ _ hl =>
        rw [build_retire]
        obtain ⟨_, -, rfl⟩ := jumpTo_ok hl
        rfl
    | leave _ => rfl
    | kill => rfl

theorem build_of_enter {l' : Lane} (h : l.enter p b as liveGlobals = (.ok (), l')) :
    l'.build = l.build := by
  have hbuild : (l.bindGlobals b.globals).1.build = l.build :=
    bindGlobals_induction (P := fun l' => l'.build = l.build) rfl fun _ h => (build_assign ..).trans h
  obtain ⟨a, l₁, -, hl₁, rfl⟩ := eq_of_enter h
  rw [hl₁] at hbuild
  rw [build_skipNops, ← hbuild]
  exact Prod.ext rfl Array.size_mapIdx

/-- Every lane of a program is of its stage and has places for its identifiers. -/
theorem Run.build_eq (h : Run p b as liveGlobals l) : l.build = (p.stage, p.idCount) := by
  induction h with
  | entered h => exact (build_of_enter h).trans (Prod.ext rfl Array.size_replicate)
  | stepped _ _ _ h ih => exact (build_of_step h).trans ih
  | @refreshed l l' memory _ h ih =>
      have hframe := frame_refreshGlobals l memory b.globals
      rw [h] at hframe
      exact (build_of_frame hframe).trans ih
  | skipped _ ih => exact (build_skipNops p).trans ih

end Lane

end Lockstep
