import Lockstep.Exec.Step

set_option autoImplicit false

/-! # What instructions leave alone

The frame of a lane is what an instruction does not change before its outcome is carried out: where
the lane is, whether it runs, and which identifiers are assigned and in scope. A computation keeps
the frame when its parts do (`Step.Keeps.bind`), whether it succeeds or not. -/

namespace Lockstep

namespace Lane

/-- A lane without its values and its own memory. -/
def frame (l : Lane) : Lane :=
  { l with
    cells := l.cells.map fun c => { c with value := c.value.map fun _ => .empty }
    input := .empty
    output := .empty
    memory := {}
    references := .empty
    properties := .empty
    accessed := [] }

variable {l l' : Lane}

theorem size_cells_of_frame (h : l'.frame = l.frame) : l'.cells.size = l.cells.size := by
  have h := congrArg (·.cells.size) h
  simpa [frame] using h

/-- Lanes with one frame have cells that differ only in their values. -/
theorem cell_of_frame (h : l'.frame = l.frame) (i : Nat) :
    l'.cells[i]?.map (fun c => (c.value.isSome, c.isLive, c.isGlobal)) =
      l.cells[i]?.map (fun c => (c.value.isSome, c.isLive, c.isGlobal)) := by
  have h := congrArg (fun k => k.cells[i]?.map fun c => (c.value.isSome, c.isLive, c.isGlobal)) h
  simpa [frame, Function.comp_def] using h

/-- Lanes with one frame have values for the same identifiers. -/
theorem isSome_value_of_frame (h : l'.frame = l.frame) (id : Id) :
    (l'.value? id).isSome = (l.value? id).isSome := by
  have hsize := size_cells_of_frame h
  have hcell := cell_of_frame h id.index
  unfold value? inputId outputId
  rw [hsize]
  split
  · cases hc' : l'.cells[id.index]? <;> cases hc : l.cells[id.index]? <;>
      simp_all [Option.bind]
  · split
    · rfl
    · split <;> rfl

/-- Lanes with one frame have the same identifiers in scope. -/
theorem isLive_of_frame (h : l'.frame = l.frame) (id : Id) : l'.isLive id = l.isLive id := by
  have hsize := size_cells_of_frame h
  have hcell := cell_of_frame h id.index
  unfold isLive inputId outputId
  rw [hsize]
  split
  · cases hc' : l'.cells[id.index]? <;> cases hc : l.cells[id.index]? <;> simp_all
  · rfl

/-- An assignment changes values only. -/
theorem assign_eq (l : Lane) (id : Id) (v : Variable) : ∃ cells input output,
    cells.size = l.cells.size ∧ l.assign id v = { l with cells, input, output } := by
  unfold assign
  split
  · exact ⟨_, _, _, Array.size_modify, rfl⟩
  · split
    · exact ⟨_, _, _, rfl, rfl⟩
    · split <;> exact ⟨_, _, _, rfl, rfl⟩

theorem size_assign (l : Lane) (id : Id) (v : Variable) :
    (l.assign id v).cells.size = l.cells.size := by
  obtain ⟨_, _, _, hsize, h⟩ := assign_eq l id v
  rwa [h]

theorem memory_assign (l : Lane) (id : Id) (v : Variable) : (l.assign id v).memory = l.memory := by
  obtain ⟨_, _, _, -, h⟩ := assign_eq l id v
  rw [h]

theorem previousBlock_assign (l : Lane) (id : Id) (v : Variable) :
    (l.assign id v).previousBlock = l.previousBlock := by
  obtain ⟨_, _, _, -, h⟩ := assign_eq l id v
  rw [h]

theorem phiValues_assign (l : Lane) (id : Id) (v : Variable) :
    (l.assign id v).phiValues = l.phiValues := by
  obtain ⟨_, _, _, -, h⟩ := assign_eq l id v
  rw [h]

theorem ne_outputId {id : Id} (h : id.index < l.cells.size) : id ≠ l.outputId := by
  rintro rfl
  simp only [outputId] at h
  omega

theorem value_outputId (l : Lane) : l.value? l.outputId = some l.output := by
  unfold value? inputId outputId
  rw [if_neg (by simp), if_neg (by simp), if_pos rfl]

/-- To assign the output changes nothing else. -/
theorem assign_outputId (l : Lane) (v : Variable) : l.assign l.outputId v = { l with output := v } := by
  unfold assign inputId outputId
  rw [if_neg (by simp), if_neg (by simp), if_pos rfl]

theorem bringIntoScope_outputId (l : Lane) : l.bringIntoScope l.outputId = l := by
  have hcells : l.cells.modify (l.cells.size + 1) (fun c => { c with isLive := true }) = l.cells :=
    Array.ext (by simp) fun j hj hj' => by
      rw [Array.getElem_modify_of_ne (by omega)]
  exact congrArg (fun cells => { l with cells }) hcells

theorem bringIntoScope_assign_outputId (l : Lane) (v : Variable) :
    (l.assign l.outputId v).bringIntoScope l.outputId = { l with output := v } := by
  rw [assign_outputId]
  exact bringIntoScope_outputId { l with output := v }

/-- To assign the value that an identifier has changes nothing. -/
theorem assign_eq_self {id : Id} {v : Variable} (h : l.value? id = some v) : l.assign id v = l := by
  unfold value? at h
  unfold assign
  split
  · next hlt =>
      rw [if_pos hlt, Array.getElem?_eq_getElem hlt, Option.bind_some] at h
      have hcells : l.cells.modify id.index (fun c => { c with value := some v }) = l.cells := by
        refine Array.ext (by simp) fun j hj hj' => ?_
        rw [Array.getElem_modify]
        split
        · next hij =>
            subst hij
            exact congrArg (fun value => { l.cells[id.index] with value }) h.symm
        · rfl
      rw [hcells]
  · next hlt =>
      rw [if_neg hlt] at h
      split
      · next hinput =>
          rw [if_pos hinput] at h
          cases h
          rfl
      · next hinput =>
          rw [if_neg hinput] at h
          split
          · next houtput =>
              rw [if_pos houtput] at h
              cases h
              rfl
          · rfl

/-- To replace the value of an identifier that has one keeps the frame. -/
theorem frame_assign (id : Id) (v : Variable) (h : (l.value? id).isSome) :
    (l.assign id v).frame = l.frame := by
  unfold assign
  split
  · next hlt =>
      rw [value?, if_pos hlt, Array.getElem?_eq_getElem hlt, Option.bind_some] at h
      simp only [frame, mk.injEq, true_and, and_true]
      refine Array.ext (by simp) fun j hj hj' => ?_
      simp only [Array.getElem_map, Array.getElem_modify]
      split
      · next hij =>
          subst hij
          obtain ⟨w, hw⟩ := Option.isSome_iff_exists.1 h
          simp [hw]
      · rfl
  · split
    · rfl
    · split <;> rfl

end Lane

namespace Step

variable {α β : Type}

/-- Run from a machine, the computation keeps the frame of the lane. -/
def KeepsAt (step : Step α) (m : Machine) : Prop := (step.on m).2.lane.frame = m.lane.frame

/-- The computation keeps the frame of every lane. -/
structure Keeps (step : Step α) : Prop where
  keepsAt : ∀ m, step.KeepsAt m

theorem on_bind (x : Step α) (f : α → Step β) (m : Machine) :
    (x >>= f).on m = match x.on m with
      | (.ok a, m) => (f a).on m
      | (.error fault, m) => (.error fault, m) := by
  show ExceptT.bindCont f (x m).1 (x m).2 = match x m with
    | (.ok a, m) => f a m
    | (.error fault, m) => (.error fault, m)
  rcases x m with ⟨_ | _, _⟩ <;> rfl

/-- A computation that succeeds in two parts. -/
theorem ok_of_on_bind {x : Step α} {f : α → Step β} {m m' : Machine} {b : β}
    (h : (x >>= f).on m = (.ok b, m')) :
    ∃ a m₁, x.on m = (.ok a, m₁) ∧ (f a).on m₁ = (.ok b, m') := by
  rw [on_bind] at h
  split at h
  · next a m₁ hx => exact ⟨a, m₁, hx, h⟩
  · cases h

/-- A computation in two parts that fails. -/
theorem error_of_on_bind {x : Step α} {f : α → Step β} {m m' : Machine} {fault : Fault}
    (h : (x >>= f).on m = (.error fault, m')) :
    x.on m = (.error fault, m') ∨ ∃ a m₁, x.on m = (.ok a, m₁) ∧ (f a).on m₁ = (.error fault, m') := by
  rw [on_bind] at h
  split at h
  · next a m₁ hx => exact .inr ⟨a, m₁, hx, h⟩
  · next fault' m₁ hx =>
      cases h
      exact .inl hx

/-- A computation that is not given up. -/
theorem ok_of_guard {c : Prop} [Decidable c] {fault : Fault} {x : Unit → Step α} {m m' : Machine}
    {a : α} (h : (if c then MonadExcept.throw fault >>= x else x ()).on m = (.ok a, m')) :
    ¬ c ∧ (x ()).on m = (.ok a, m') := by
  split at h
  · cases h
  · next hc => exact ⟨hc, h⟩

/-- A computation that is given up on a condition, or fails later. -/
theorem error_of_guard {c : Prop} [Decidable c] {fault fault' : Fault} {x : Unit → Step α}
    {m m' : Machine}
    (h : (if c then MonadExcept.throw fault >>= x else x ()).on m = (.error fault', m')) :
    (fault' = fault ∧ m' = m) ∨ (x ()).on m = (.error fault', m') := by
  split at h
  · cases h
    exact .inl ⟨rfl, rfl⟩
  · exact .inr h

theorem on_lift (x : Except Fault α) (m : Machine) : (liftM x : Step α).on m = (x, m) := rfl

theorem KeepsAt.bind {x : Step α} {f : α → Step β} {m : Machine} (hx : x.KeepsAt m)
    (hf : ∀ a m', x.on m = (.ok a, m') → (f a).KeepsAt m') : (x >>= f).KeepsAt m := by
  unfold KeepsAt at hx ⊢
  rw [on_bind]
  rcases hm : x.on m with ⟨fault | a, m'⟩
  · rw [hm] at hx
    exact hx
  · rw [hm] at hx
    exact (hf a m' hm).trans hx

namespace Keeps

theorem bind {x : Step α} {f : α → Step β} (hx : x.Keeps) (hf : ∀ a, (f a).Keeps) :
    (x >>= f).Keeps :=
  ⟨fun m => (hx.keepsAt m).bind fun a m' _ => (hf a).keepsAt m'⟩

theorem ite {c : Prop} [Decidable c] {x y : Step α} (hx : x.Keeps) (hy : y.Keeps) :
    (if c then x else y).Keeps := by
  split
  · exact hx
  · exact hy

theorem pure (a : α) : (Pure.pure a : Step α).Keeps := ⟨fun _ => rfl⟩

theorem throw (fault : Fault) : (MonadExcept.throw fault : Step α).Keeps := ⟨fun _ => rfl⟩

theorem lift (x : Except Fault α) : (liftM x : Step α).Keeps := ⟨fun _ => rfl⟩

theorem lane : Step.lane.Keeps := ⟨fun _ => rfl⟩

theorem shared : Step.shared.Keeps := ⟨fun _ => rfl⟩

theorem note (c : Change) : (Step.note c).Keeps := ⟨fun _ => rfl⟩

theorem raise (e : Events) : (Step.raise e).Keeps := ⟨fun _ => rfl⟩

theorem modifyWorld (f : World → World) : (Step.modifyWorld f).Keeps := ⟨fun _ => rfl⟩

theorem modifyLane {f : Lane → Lane} (h : ∀ l, (f l).frame = l.frame) :
    (Step.modifyLane f).Keeps :=
  ⟨fun m => h m.lane⟩

theorem onWorld (f : World → α × World) : (Step.onWorld f).Keeps := ⟨fun _ => rfl⟩

theorem ask (s : Setting) (r : HostRequest) : (Step.ask s r).Keeps := onWorld _

theorem srv (s : Setting) (slot : Slot) : (Step.srv s slot).Keeps := onWorld _

theorem uav (s : Setting) (slot : Slot) : (Step.uav s slot).Keeps := onWorld _

theorem setUav (slot : Slot) (snapshot : Snapshot) : (Step.setUav slot snapshot).Keeps :=
  modifyWorld _

theorem arg (i : Instr) (index : Nat) : (Step.arg i index).Keeps :=
  lane.bind fun _ => lift _

theorem argWord32 (i : Instr) (index : Nat) : (Step.argWord32 i index).Keeps :=
  lane.bind fun _ => lift _

end Keeps

end Step

end Lockstep
