import Lockstep.Proofs.Flow.Tracked
import Mathlib.Data.List.Pairwise

set_option autoImplicit false

/-! # Unique definitions

The walk over the instructions of a function notes every identifier that an instruction defines, never
takes one off again, and fails at an identifier that it has noted before. So in a function that is
analysed an identifier is the result of one instruction (`FunctionAnalysis.Describes.eq_of_defined`). -/

namespace Lockstep

namespace LiveRanges

variable {p : Program} {cf : ControlFlow} {s s' : LiveRanges} {id : Id} {here : Point}
  {starts : List Nat} {count i : Nat} {instr : Instr}

theorem not_mem_of_define (h : define cf s id here = .ok s') : id ∉ s.referenced := by
  unfold define at h
  split at h
  · cases h
  · next hnew => exact fun hmem => hnew (List.contains_iff_mem.2 hmem)

/-- What an instruction defines was not noted before. -/
theorem not_mem_of_note (h : note p cf starts count i instr s = .ok s') (hid : instr.defined? = some id) :
    id ∉ s.referenced := by
  unfold note at h
  unfold Instr.defined? at hid
  split at h
  · next hnop =>
      rw [if_pos hnop] at hid
      cases hid
  · next hnop =>
      rw [if_neg hnop] at hid
      obtain ⟨s₁, hresult, -⟩ := ok_of_bind h
      unfold noteResult at hresult
      rw [hid] at hresult
      exact not_mem_of_define hresult

/-- No instruction defines what is noted before the walk comes to it, and so no two define the same. -/
theorem pairwise_of_walk {instrs : List Instr} (h : walk p cf starts count i instrs s = .ok s') :
    (∀ instr ∈ instrs, ∀ id, instr.defined? = some id → id ∉ s.referenced) ∧
      instrs.Pairwise fun x y => ∀ id, x.defined? = some id → y.defined? ≠ some id := by
  induction instrs generalizing s i with
  | nil => exact ⟨fun _ hinstr => absurd hinstr List.not_mem_nil, .nil⟩
  | cons instr rest ih =>
      rw [walk] at h
      obtain ⟨s₁, hnote, h⟩ := ok_of_bind h
      have hadds := (adds_note hnote).referenced
      obtain ⟨hrest, hpairwise⟩ := ih h
      refine ⟨fun instr' hinstr id hid => ?_, .cons (fun instr' hinstr id hid hid' => ?_) hpairwise⟩
      · rcases List.mem_cons.1 hinstr with rfl | hinstr
        · exact not_mem_of_note hnote hid
        · exact fun hmem => hrest instr' hinstr id hid ((hadds id).2 (.inl hmem))
      · exact hrest instr' hinstr id hid' ((hadds id).2 (.inr (.inl hid)))

end LiveRanges

/-- An identifier of an analysed function is defined by one instruction. -/
theorem FunctionAnalysis.Describes.eq_of_defined {p : Program} {f : Function} {a : FunctionAnalysis}
    (h : a.Describes p f) {j k : Nat} {x y : Instr} {id : Id} (hx : f.instrs[j]? = some x)
    (hy : f.instrs[k]? = some y) (hid : x.defined? = some id) (hid' : y.defined? = some id) : j = k := by
  obtain ⟨s, hwalk, -⟩ := h.lastReads
  obtain ⟨-, hpairwise⟩ := LiveRanges.pairwise_of_walk hwalk
  have happart : ∀ {j k : Nat} {x y : Instr}, f.instrs[j]? = some x → f.instrs[k]? = some y →
      x.defined? = some id → y.defined? = some id → ¬ j < k := by
    intro j k x y hx hy hid hid' hlt
    obtain ⟨hj, rfl⟩ := Array.getElem?_eq_some_iff.1 hx
    obtain ⟨hk, rfl⟩ := Array.getElem?_eq_some_iff.1 hy
    exact List.pairwise_iff_getElem.1 hpairwise j k hj hk hlt id hid hid'
  exact Nat.le_antisymm (Nat.le_of_not_lt (happart hy hx hid' hid)) (Nat.le_of_not_lt (happart hx hy hid hid'))

end Lockstep
