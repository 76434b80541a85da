import Lockstep.Proofs.Exec.Mirror
import Lockstep.Proofs.Lane.Scope
import Lockstep.Proofs.Lane.Step
import Lockstep.Proofs.Lane.Watch

set_option autoImplicit false

/-! # Reports of a step

What a lane drops and what it assigns fits the watch window, which shows the lane's scene afterwards
(`Step.Watched.conclude`), if what an instruction leaves to be assigned is reportable. -/

namespace Lockstep

namespace Lane

/-- What a watch window should show of the lane. -/
def scene (l : Lane) : Scene where
  input := l.input
  value id := l.cells[id.index]?.bind Cell.value
  live id := l.cells[id.index]?.any Cell.isLive

variable {l l' : Lane} {id : Id}

theorem scene_of_cells (hcells : l'.cells = l.cells) (hinput : l'.input = l.input) :
    l'.scene = l.scene := by
  unfold scene
  rw [hcells, hinput]

theorem value_scene (h : id.index < l.cells.size) : l.scene.value id = l.value? id :=
  (if_pos h).symm

theorem live_scene (h : id.index < l.cells.size) : l.scene.live id ↔ l.isLive id := by
  rw [isLive, if_pos h]
  rfl

theorem index_lt_of_live (h : l.scene.live id) : id.index < l.cells.size := by
  obtain ⟨c, hc, -⟩ := (Option.any_eq_true _ _).1 h
  exact (Array.getElem?_eq_some_iff.1 hc).1

theorem mem_liveIds : id ∈ l.liveIds ↔ l.scene.live id := by
  unfold liveIds
  rw [List.mem_filter]
  constructor
  · rintro ⟨hmem, hlive⟩
    obtain ⟨j, hj, rfl⟩ := List.mem_map.1 hmem
    exact (live_scene (List.mem_range.1 hj)).2 hlive
  · intro hlive
    have hlt := index_lt_of_live hlive
    exact ⟨List.mem_map.2 ⟨id.index, List.mem_range.2 hlt, rfl⟩, (live_scene hlt).1 hlive⟩

theorem getElem?_modify_id (cells : Array Cell) (id x : Id) (f : Cell → Cell) :
    (cells.modify id.index f)[x.index]? =
      if x = id then cells[x.index]?.map f else cells[x.index]? := by
  rw [Array.getElem?_modify]
  by_cases hx : x = id
  · rw [if_pos hx, if_pos (congrArg Id.index hx).symm]
  · rw [if_neg hx, if_neg fun heq => hx (congrArg Id.mk heq.symm)]

theorem scene_assign (h : id.index < l.cells.size) (v : Variable) :
    (l.assign id v).scene = l.scene.set id v := by
  unfold assign
  rw [if_pos h]
  refine Scene.ext rfl (funext fun x => ?_) (funext fun x => ?_)
  · simp only [scene, Scene.set, getElem?_modify_id]
    split
    · next hx =>
        rw [hx, Array.getElem?_eq_getElem h]
        rfl
    · rfl
  · simp only [scene, Scene.set, getElem?_modify_id]
    split
    · cases l.cells[x.index]? <;> rfl
    · rfl

theorem scene_bringIntoScope (h : id.index < l.cells.size) :
    (l.bringIntoScope id).scene = l.scene.raise id := by
  unfold bringIntoScope
  refine Scene.ext rfl (funext fun x => ?_) (funext fun x => propext ?_)
  · simp only [scene, Scene.raise, getElem?_modify_id]
    split
    · cases l.cells[x.index]? <;> rfl
    · rfl
  · simp only [scene, Scene.raise, getElem?_modify_id]
    split
    · next hx =>
        rw [hx, Array.getElem?_eq_getElem h]
        simp
    · next hx => rw [or_iff_left hx]

theorem mem_retiring {a : FunctionAnalysis} {keep : Option Id} :
    id ∈ l.retiring a keep ↔ ∃ c, l.cells[id.index]? = some c ∧ retires a l.point keep id c := by
  unfold retiring
  rw [List.mem_filter, Option.any_eq_true]
  refine and_iff_right_of_imp ?_
  rintro ⟨c, hc, -⟩
  exact List.mem_map.2 ⟨id.index, List.mem_range.2 (Array.getElem?_eq_some_iff.1 hc).1, rfl⟩

theorem nodup_retiring (l : Lane) (a : FunctionAnalysis) (keep : Option Id) :
    (l.retiring a keep).Nodup :=
  (List.nodup_range.map fun _ _ h => congrArg Id.index h).filter _

theorem live_of_mem_retiring {a : FunctionAnalysis} {keep : Option Id} (h : id ∈ l.retiring a keep) :
    l.scene.live id ∧ some id ≠ keep := by
  obtain ⟨c, hc, hretires⟩ := mem_retiring.1 h
  simp only [retires, Bool.and_eq_true, bne_iff_ne] at hretires
  exact ⟨(Option.any_eq_true _ _).2 ⟨c, hc, hretires.1.1.1⟩, hretires.1.2⟩

theorem scene_retire (l : Lane) (a : FunctionAnalysis) (keep : Option Id) :
    (l.retire a keep).scene = l.scene.dropAll (l.retiring a keep) := by
  obtain ⟨hvalue, hinput⟩ := l.scene.value_dropAll (l.retiring a keep)
  have hcell : ∀ x : Id, (l.retire a keep).cells[x.index]? = l.cells[x.index]?.map fun c =>
      if retires a l.point keep x c then { c with isLive := false } else c :=
    fun x => Array.getElem?_mapIdx
  refine Scene.ext hinput.symm ?_ (funext fun x => propext ?_)
  · rw [hvalue]
    funext x
    simp only [scene, hcell]
    cases l.cells[x.index]? with
    | none => rfl
    | some c => by_cases hretires : retires a l.point keep x c <;> simp [hretires]
  · rw [Scene.live_dropAll, mem_retiring]
    simp only [scene, hcell]
    cases hc : l.cells[x.index]? with
    | none => simp
    | some c => by_cases hretires : retires a l.point keep x c <;> simp [hretires]

theorem assignment_scene (h : id.index < l.cells.size) (v : Variable) :
    l.assignment id v = l.scene.assignment id v := by
  unfold assignment Scene.assignment
  have hscene := value_scene h
  cases hvalue : l.value? id with
  | none => simp only [hscene, hvalue]
  | some before => simp only [hscene, hvalue]

theorem dropped_of_scene (h : id.index < l.cells.size) (hvalue : (l.scene.value id).isSome)
    (hlive : ¬ l.scene.live id) : l.Dropped id :=
  ⟨value_scene h ▸ hvalue, fun h' => hlive ((live_scene h).2 h')⟩

end Lane

/-! ## Watched machines -/

/-- A change that an instruction reports to mark the use of a resource. What such instructions compute
    is no resource. -/
def Change.isMark (i : Instr) (c : Change) : Bool :=
  i.intrinsic?.any Intrinsic.usesHandle && c.after.any (·.elem.isResource)

/-- The changes that an instruction reports, without marks. -/
def Instr.shownChanges (i : Instr) (cs : List Change) : List Change := cs.filter fun c => !c.isMark i

namespace Step

variable {names : Id → String → Prop} {aside : String → Prop} {i : Instr} {w₀ : Watch} {m m' : Machine}
  {a : FunctionAnalysis} {id : Id} {v : Variable}

/-- A window that follows what has been reported shows the scene of the lane. -/
def Watched (names : Id → String → Prop) (aside : String → Prop) (i : Instr) (w₀ : Watch)
    (m : Machine) : Prop :=
  ∃ w, w₀.Follows aside (i.shownChanges m.changes.toList) w ∧ m.lane.scene.Shown names aside w

namespace Watched

theorem of_scene (h : Watched names aside i w₀ m) (hscene : m'.lane.scene = m.lane.scene)
    (hchanges : m'.changes = m.changes) : Watched names aside i w₀ m' := by
  unfold Watched
  rw [hscene, hchanges]
  exact h

/-- More is reported, and no marks. -/
theorem report (h : Watched names aside i w₀ m) {cs : List Change}
    (hchanges : m'.changes = m.changes ++ cs.toArray) (hmarks : ∀ c ∈ cs, ¬ c.isMark i)
    (hfollows : ∀ w, m.lane.scene.Shown names aside w →
      ∃ w', w.Follows aside cs w' ∧ m'.lane.scene.Shown names aside w') :
    Watched names aside i w₀ m' := by
  obtain ⟨w, hw, hshown⟩ := h
  obtain ⟨w', hw', hshown'⟩ := hfollows w hshown
  refine ⟨w', ?_, hshown'⟩
  have hcs : i.shownChanges cs = cs := List.filter_eq_self.2 fun c hc => by simpa using hmarks c hc
  rw [← hcs] at hw'
  rw [hchanges, Array.toList_append, Instr.shownChanges, List.filter_append]
  exact hw.append hw'

theorem retire (hd : Distinct names) (h : Watched names aside i w₀ m) (a : FunctionAnalysis)
    (keep : Option Id) (hok : (Step.retire a keep).on m = (.ok (), m')) :
    Watched names aside i w₀ m' ∧ m'.lane = m.lane.retire a keep := by
  cases (on_retire a keep m).symm.trans hok
  refine ⟨h.report rfl (fun c hc => ?_) fun w hw => ?_, rfl⟩
  · obtain ⟨id, -, rfl⟩ := List.mem_map.1 hc
    simp [Change.isMark, Change.removed]
  · rw [Lane.scene_retire]
    refine hw.dropAll hd (m.lane.nodup_retiring a keep) fun id hid => ?_
    obtain ⟨hlive, -⟩ := Lane.live_of_mem_retiring hid
    obtain ⟨v, hv⟩ := Option.isSome_iff_exists.1 (hw.valued hlive)
    refine ⟨hlive, ?_⟩
    rw [← Lane.value_scene (Lane.index_lt_of_live hlive), hv]
    rfl

end Watched

/-- What an instruction leaves to be done fits a watch window: an identifier is assigned under a name of
    its own, or the output, or what is left aside. -/
inductive Reportable (names : Id → String → Prop) (aside : String → Prop) (i : Instr) (l : Lane) :
    Outcome → Prop
  | proceed : Reportable names aside i l (.effect .proceed)
  | kill : Reportable names aside i l (.effect .kill)
  | jump (block : Nat) : Reportable names aside i l (.jump block)
  | leave : Reportable names aside i l .leave
  | value {id : Id} {v : Variable} (hid : id.index < l.cells.size)
      (hname : names id v.name ∨ aside v.name ∧ Scene.Hides names aside id)
      (hdropped : l.Dropped id → Scene.Hides names aside id)
      (hmark : i.intrinsic?.any Intrinsic.usesHandle → ¬ v.elem.isResource) :
      Reportable names aside i l (.effect (.value id v))
  | silent {id : Id} {v : Variable} (hid : id.index < l.cells.size)
      (hhides : Scene.Hides names aside id) (haside : aside v.name) :
      Reportable names aside i l (.effect (.assign id v false))
  | output {v : Variable} (hi : i.intrinsic? = some .storeOutput) (haside : aside v.name) :
      Reportable names aside i l (.effect (.value l.outputId v))

theorem elem_assigned (i : Instr) (v : Variable) :
    (i.assigned v).elem = v.elem ∧ (i.assigned v).name = v.name := by
  unfold Instr.assigned Variable.flushed
  split
  · split
    · exact ⟨rfl, rfl⟩
    · exact ⟨rfl, rfl⟩
  · exact ⟨rfl, rfl⟩

namespace Watched

/-- An identifier is assigned, and reported, after others have been dropped. -/
theorem assign (hd : Distinct names) (h : Watched names aside i w₀ m) (hid : id.index < m.lane.cells.size)
    (hname : names id v.name ∨ aside v.name ∧ Scene.Hides names aside id)
    (hdropped : m.lane.Dropped id → Scene.Hides names aside id)
    (hmark : i.intrinsic?.any Intrinsic.usesHandle → ¬ v.elem.isResource)
    (hok : (Step.assign i id v true).on m = (.ok (), m')) : Watched names aside i w₀ m' := by
  obtain ⟨-, events, rfl⟩ := assign_ok hok
  obtain ⟨helem, hname'⟩ := elem_assigned i v
  refine h.report (Array.push_eq_append ..) (fun c hc => ?_) fun w hw => ?_
  · rw [List.mem_singleton.1 hc, Change.isMark, Bool.and_eq_true]
    rintro ⟨huses, hres⟩
    refine hmark huses ?_
    unfold Lane.assignment at hres
    split at hres
    · exact helem ▸ hres
    · exact helem ▸ hres
  · rw [Lane.assignment_scene hid, Lane.scene_bringIntoScope (by rwa [Lane.size_assign]),
      Lane.scene_assign hid]
    exact hw.assign hd (hname' ▸ hname) fun hvalue hlive =>
      hdropped (Lane.dropped_of_scene hid hvalue hlive)

/-- An identifier that is kept is not dropped. -/
theorem dropped_of_retire_some {l : Lane} (hid : id.index < l.cells.size)
    (h : (l.retire a (some id)).Dropped id) : l.Dropped id := by
  have hsize : (l.retire a (some id)).cells.size = l.cells.size := Array.size_mapIdx
  obtain ⟨hvalue, hlive⟩ := h
  rw [← Lane.value_scene (hsize.symm ▸ hid), Lane.scene_retire, (Scene.value_dropAll ..).1] at hvalue
  rw [← Lane.live_scene (hsize.symm ▸ hid), Lane.scene_retire, Scene.live_dropAll] at hlive
  refine Lane.dropped_of_scene hid hvalue fun hlive' => hlive ⟨hlive', fun hmem => ?_⟩
  exact (Lane.live_of_mem_retiring hmem).2 rfl

/-- What is done in the end fits the window. -/
theorem conclude (hd : Distinct names) (h : Watched names aside i w₀ m) {o : Outcome}
    (ho : Reportable names aside i m.lane o) (hok : (Step.conclude a i o).on m = (.ok (), m')) :
    Watched names aside i w₀ m' := by
  have hsize : ∀ keep, (m.lane.retire a keep).cells.size = m.lane.cells.size := fun _ =>
    Array.size_mapIdx
  cases ho with
  | proceed => exact (h.retire hd a none hok).1
  | kill =>
      cases hok
      exact h.of_scene rfl rfl
  | jump block =>
      obtain ⟨_, _, hlane, hok⟩ := ok_of_on_bind hok
      cases hlane
      obtain ⟨l, _, hjump, hok⟩ := ok_of_on_bind hok
      obtain ⟨hl, rfl⟩ := Prod.mk.inj hjump
      obtain ⟨_, m₁, hmodify, hok⟩ := ok_of_on_bind hok
      cases hmodify
      have hscene : l.scene = m.lane.scene := by
        obtain ⟨_, -, rfl⟩ := Lane.jumpTo_ok hl
        rfl
      have h₁ : Watched names aside i w₀ { m with lane := l } := h.of_scene hscene rfl
      exact (h₁.retire hd a none hok).1
  | leave =>
      cases hok
      exact h.of_scene rfl rfl
  | value hid hname hdropped hmark =>
      obtain ⟨_, m₁, hretire, hassign⟩ := ok_of_on_bind hok
      obtain ⟨h₁, hlane⟩ := h.retire hd a _ hretire
      rw [← hsize (some _), ← hlane] at hid
      refine h₁.assign hd hid hname (fun hdrop => hdropped ?_) hmark hassign
      rw [hlane] at hdrop hid
      exact dropped_of_retire_some (hsize _ ▸ hid) hdrop
  | @silent id v hid hhides haside =>
      obtain ⟨_, m₁, hretire, hassign⟩ := ok_of_on_bind hok
      obtain ⟨h₁, hlane⟩ := h.retire hd a _ hretire
      obtain ⟨-, events, rfl⟩ := assign_ok hassign
      rw [← hsize (some _), ← hlane] at hid
      obtain ⟨-, hname⟩ := elem_assigned i v
      refine h₁.report (Array.append_empty ..).symm (fun c hc => nomatch hc) fun w hw => ⟨w, .nil, ?_⟩
      rw [Lane.scene_bringIntoScope (by rwa [Lane.size_assign]), Lane.scene_assign hid]
      exact hw.hide hhides (.inr (hname ▸ haside)) _ rfl (fun _ => rfl) fun x hx => or_iff_left hx
  | @output v hi haside =>
      obtain ⟨_, m₁, hretire, hassign⟩ := ok_of_on_bind hok
      obtain ⟨h₁, hlane⟩ := h.retire hd a _ hretire
      have hid : m.lane.outputId = m₁.lane.outputId := by rw [hlane, Lane.outputId, Lane.outputId, hsize]
      rw [hid] at hassign
      obtain ⟨-, events, rfl⟩ := assign_ok hassign
      obtain ⟨-, hname⟩ := elem_assigned i v
      have hchange : (m₁.lane.assignment m₁.lane.outputId (i.assigned v)).name = v.name := by
        unfold Lane.assignment
        split <;> exact hname
      refine h₁.report (Array.push_eq_append ..) (fun c hc => ?_) fun w hw => ⟨w, ?_, ?_⟩
      · rw [Change.isMark, hi]
        simp [Intrinsic.usesHandle]
      · exact .skip (hchange ▸ haside) .nil
      · rw [Lane.bringIntoScope_assign_outputId]
        exact hw

end Watched

end Step

end Lockstep
