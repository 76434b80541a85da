import Lockstep.Proofs.Lane.Follow
import Lockstep.Proofs.Lane.Step
import Mathlib.Data.List.Pairwise

set_option autoImplicit false

/-! # Identifiers of a program

Where the input, the output, the global variables and the results of a program have identifiers of their
own, an identifier belongs to one of them, and a result to one instruction
(`Program.UniqueIds.eq_of_result`). -/

namespace Lockstep

namespace Program

/-- An instruction of a program. -/
def HasInstr (p : Program) (i : Instr) : Prop := ∃ f ∈ p.functions, i ∈ f.instrs

/-- The identifiers of the input and the output, of global variables, and of results. -/
def ids (p : Program) : List Id :=
  ⟨p.idCount⟩ :: ⟨p.idCount + 1⟩ :: (p.globals.map (·.id) ++ p.results)

/-- Each identifier is used once. -/
def UniqueIds (p : Program) : Prop := p.ids.Nodup

instance (p : Program) : Decidable p.UniqueIds := inferInstanceAs (Decidable p.ids.Nodup)

variable {p : Program} {i j : Instr} {id : Id}

theorem HasInstr.isResult (h : p.HasInstr i) (hid : i.result = some id) : p.IsResult id := by
  obtain ⟨f, hf, hi⟩ := h
  exact ⟨f, hf, i, hi, hid⟩

/-- What a lane executes next is an instruction of the program. -/
theorem hasInstr_of_nextInstr {l : Lane} {as : Analyses} {a : FunctionAnalysis}
    (h : l.nextInstr p as = .ok (a, i)) : p.HasInstr i := by
  obtain ⟨-, f, hf, hi⟩ := Lane.nextInstr_eq_ok h
  exact ⟨f, Array.mem_of_getElem? hf, Array.mem_of_getElem? hi⟩

namespace UniqueIds

theorem eq_of_result (h : p.UniqueIds) (hi : p.HasInstr i) (hj : p.HasInstr j)
    (hid : i.result = some id) (hid' : j.result = some id) : i = j := by
  have hresults : p.results =
      (p.functions.toList.flatMap fun f => f.instrs.toList).filterMap Instr.result := by
    rw [List.filterMap_flatMap]
    rfl
  have hmem : ∀ {i}, p.HasInstr i → i ∈ p.functions.toList.flatMap fun f => f.instrs.toList := by
    rintro i ⟨f, hf, hi⟩
    exact List.mem_flatMap.2 ⟨f, hf.val, hi.val⟩
  have hnodup : p.results.Nodup := (List.nodup_append.1 (List.nodup_cons.1 (List.nodup_cons.1 h).2).2).2.1
  rw [hresults, List.Nodup, List.pairwise_filterMap] at hnodup
  by_contra hne
  have hsymm : Std.Symm fun i j : Instr => ∀ x, i.result = some x → ∀ y, j.result = some y → x ≠ y :=
    ⟨fun i j h x hx y hy heq => h y hy x hx heq.symm⟩
  exact hnodup.forall (hmem hi) (hmem hj) hne id hid id hid' rfl

theorem apart (h : p.UniqueIds) (hid : p.IsResult id) : ¬ p.IsGlobal id := by
  rintro ⟨g, hg, rfl⟩
  have hnodup := (List.nodup_append.1 (List.nodup_cons.1 (List.nodup_cons.1 h).2).2).2.2
  exact hnodup g.id (List.mem_map_of_mem hg) g.id (isResult_iff.1 hid) rfl

theorem ne_reserved (h : p.UniqueIds) (hid : p.IsResult id ∨ p.IsGlobal id) :
    id ≠ ⟨p.idCount⟩ ∧ id ≠ ⟨p.idCount + 1⟩ := by
  have hmem : id ∈ p.globals.map (·.id) ++ p.results := by
    rcases hid with hid | ⟨g, hg, rfl⟩
    · exact List.mem_append_right _ (isResult_iff.1 hid)
    · exact List.mem_append_left _ (List.mem_map_of_mem hg)
  obtain ⟨hinput, hrest⟩ := List.nodup_cons.1 h
  obtain ⟨houtput, -⟩ := List.nodup_cons.1 hrest
  exact ⟨fun heq => hinput (heq ▸ List.mem_cons_of_mem _ hmem), fun heq => houtput (heq ▸ hmem)⟩

theorem nodup_globals (h : p.UniqueIds) : (p.globals.map (·.id)).Nodup :=
  (List.nodup_append.1 (List.nodup_cons.1 (List.nodup_cons.1 h).2).2).1

end UniqueIds

end Program

end Lockstep
