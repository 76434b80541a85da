import Lockstep.Session
import Lockstep.Proofs.Lane.Place

set_option autoImplicit false

/-! # Which lanes run

A quad has diverged when two lanes that are not finished are at different places (`diverged_iff`).
The mask of a round is decided by where the lanes are (`Session.mask_of_places`), and it holds the
reporting lane back exactly when the lane waits (`Session.waits_iff`). -/

namespace Lockstep

theorem diverged_iff (lanes : List Lane) :
    diverged lanes ↔ ∃ l ∈ lanes, ∃ l' ∈ lanes,
      ¬ l.isFinished ∧ ¬ l'.isFinished ∧ l.position ≠ l'.position := by
  have hmem : ∀ q, q ∈ (lanes.filter fun l => !l.isFinished).map Lane.position ↔
      ∃ l ∈ lanes, ¬ l.isFinished ∧ l.position = q := by
    simp [and_assoc]
  unfold diverged
  generalize (lanes.filter fun l => !l.isFinished).map Lane.position = qs at hmem
  constructor
  · intro h
    cases qs with
    | nil => cases h
    | cons q qs =>
        obtain ⟨q', hq', hne⟩ := List.any_eq_true.1 h
        obtain ⟨l, hl, hfin, rfl⟩ := (hmem q).1 (List.mem_cons_self ..)
        obtain ⟨l', hl', hfin', rfl⟩ := (hmem q').1 (List.mem_cons_of_mem _ hq')
        exact ⟨l, hl, l', hl', hfin, hfin', fun heq => by simp [heq] at hne⟩
  · rintro ⟨l, hl, l', hl', hfin, hfin', hne⟩
    have h := (hmem _).2 ⟨l, hl, hfin, rfl⟩
    have h' := (hmem _).2 ⟨l', hl', hfin', rfl⟩
    cases qs with
    | nil => cases h
    | cons q qs =>
        refine List.any_eq_true.2 ?_
        by_cases hq : l.position = q
        · refine ⟨l'.position, (List.mem_cons.1 h').resolve_left fun heq => hne (hq.trans heq.symm), ?_⟩
          simpa using fun heq => hne (hq.trans heq.symm)
        · exact ⟨l.position, (List.mem_cons.1 h).resolve_left hq, by simpa using hq⟩

/-- In a group that has not diverged the lanes that are not finished are at one place. -/
theorem position_eq_of_not_diverged {lanes : List Lane} (h : ¬ diverged lanes) {l l' : Lane}
    (hl : l ∈ lanes) (hl' : l' ∈ lanes) (hfin : ¬ l.isFinished) (hfin' : ¬ l'.isFinished) :
    l.position = l'.position := by
  by_contra hne
  exact h ((diverged_iff lanes).2 ⟨l, hl, l', hl', hfin, hfin', hne⟩)

/-- Lanes at the same places have diverged or not alike. -/
theorem diverged_of_places {lanes lanes' : List Lane}
    (h : lanes'.map Lane.place = lanes.map Lane.place) : diverged lanes' = diverged lanes := by
  have hplaces : ∀ ls : List Lane, (ls.filter fun l => !l.isFinished).map Lane.position =
      ((ls.map Lane.place).filter fun q => !(q.isKilled || q.isEnded || !q.isEntered)).map
        fun q => (q.block, q.activeInstr) := by
    intro ls
    rw [List.filter_map, List.map_map]
    rfl
  unfold diverged
  rw [hplaces, hplaces, h]

/-- A lane that knows its number in the group. -/
def LaneInit.numbered (n : UInt64) : LaneInit :=
  { builtins := .ofList [(.groupFlatIndex, .scalar "" .uInt n)] }

namespace Session

/-- The lanes that a diverged quad lets run: those outside of uniform blocks. -/
def held (s : Session) : List Bool :=
  s.lanes.map fun l => !l.isFinished && !l.inUniformBlock s.analyses

variable {s : Session}

theorem mask_of_not_diverged (h : ¬ diverged s.lanes) :
    s.mask = s.lanes.map fun l => !l.isFinished := by
  unfold mask activeMask
  simp [h]

/-- A lane that runs alone never waits. -/
theorem mask_of_alone {l : Lane} (h : s.lanes = [l]) : s.mask = [!l.isFinished] := by
  have hdiverged : ¬ diverged s.lanes := by
    rw [h, diverged_iff]
    simp
  rw [mask_of_not_diverged hdiverged, h, List.map_singleton]

theorem mask_of_held (hstage : s.program.stage = .pixel) (h : diverged s.lanes)
    (hheld : s.held.any id) : s.mask = s.held := by
  unfold mask activeMask
  unfold held at hheld ⊢
  simp [hstage, h, hheld]

/-- Only lanes that are not finished may run. -/
theorem running_of_mask {k : Nat} (hk : s.mask[k]? = some true) :
    ∃ l, s.lanes[k]? = some l ∧ ¬ l.isFinished := by
  obtain ⟨runs, hmask, hruns⟩ : ∃ runs : Lane → Bool, s.mask = s.lanes.map runs ∧
      ∀ l, runs l → ¬ l.isFinished := by
    unfold mask activeMask
    dsimp only
    split
    · exact ⟨_, rfl, fun l => by simp⟩
    · split
      · exact ⟨_, rfl, fun l h => by simp_all⟩
      · exact ⟨_, rfl, fun l => by simp⟩
  rw [hmask, List.getElem?_map, Option.map_eq_some_iff] at hk
  obtain ⟨l, hl, hrun⟩ := hk
  exact ⟨l, hl, hruns l hrun⟩

/-- Lanes at the same places are let run alike. -/
theorem mask_of_places {s' : Session} (hprogram : s'.program = s.program)
    (hanalyses : s'.analyses = s.analyses)
    (h : s'.lanes.map Lane.place = s.lanes.map Lane.place) : s'.mask = s.mask := by
  have hunfinished : ∀ ls : List Lane, (ls.map fun l => !l.isFinished) =
      (ls.map Lane.place).map fun q => !(q.isKilled || q.isEnded || !q.isEntered) := by
    intro ls
    rw [List.map_map]
    rfl
  have hheld : ∀ ls : List Lane, (ls.map fun l => !l.isFinished && !l.inUniformBlock s.analyses) =
      (ls.map Lane.place).map fun q => !(q.isKilled || q.isEnded || !q.isEntered) &&
        !(s.analyses.of? q.function).any fun a => a.flow.isUniform q.block := by
    intro ls
    rw [List.map_map]
    rfl
  unfold mask activeMask
  simp only [hprogram, hanalyses, diverged_of_places h, hunfinished, hheld, h]

/-- The reporting lane of a diverged pixel quad is in a uniform block and waits for others. -/
structure Waits (s : Session) : Prop where
  stage : s.program.stage = .pixel
  diverged : diverged s.lanes
  others : s.held.any id
  lane : ∃ l, s.activeLane? = some l ∧ ¬ l.isFinished ∧ l.inUniformBlock s.analyses

theorem isFinished_iff : ¬ s.isFinished ↔ ∃ l, s.activeLane? = some l ∧ ¬ l.isFinished := by
  unfold isFinished
  cases s.activeLane? <;> simp

/-- The reporting lane waits exactly when it is not finished and the mask does not let it run. -/
theorem waits_iff : s.Waits ↔ ¬ s.isFinished ∧ s.mask[s.active]? ≠ some true := by
  constructor
  · rintro ⟨hstage, hdiv, hheld, l, hl, hfin, hu⟩
    refine ⟨isFinished_iff.2 ⟨l, hl, hfin⟩, ?_⟩
    rw [mask_of_held hstage hdiv hheld, held, List.getElem?_map, show s.lanes[s.active]? = _ from hl]
    simp [hu]
  · rintro ⟨hrun, hmask⟩
    obtain ⟨l, hl, hfin⟩ := isFinished_iff.1 hrun
    have hactive : s.lanes[s.active]? = some l := hl
    have hunfinished : s.mask ≠ s.lanes.map fun l => !l.isFinished := by
      intro h
      rw [h, List.getElem?_map, hactive] at hmask
      simp [hfin] at hmask
    have hdiv : diverged s.lanes := by
      by_contra hdiv
      exact hunfinished (mask_of_not_diverged hdiv)
    have hstage : s.program.stage = .pixel := by
      by_contra hstage
      exact hunfinished (by simp [mask, activeMask, hstage])
    have hheld : s.held.any id := by
      by_contra hheld
      refine hunfinished ?_
      unfold held at hheld
      unfold mask activeMask
      simp [hheld]
    refine ⟨hstage, hdiv, hheld, l, hl, hfin, ?_⟩
    rw [mask_of_held hstage hdiv hheld, held, List.getElem?_map, hactive] at hmask
    simpa [hfin] using hmask

instance (s : Session) : Decidable s.Waits := decidable_of_iff _ waits_iff.symm

end Session

end Lockstep
