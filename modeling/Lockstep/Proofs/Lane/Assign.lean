import Lockstep.Proofs.Lane.Reload
import Lockstep.Proofs.Lane.Value

set_option autoImplicit false

/-! # Steps that assign

An intrinsic that asks for an assignment makes its lane take the value, whether this is reported or not and whatever
else it changed (`Lane.step_of_intrinsic`). -/

namespace Lockstep

variable {a : FunctionAnalysis} {i : Instr} {m : Machine} {id : Id} {s : Setting} {op : Intrinsic}

namespace Step

theorem conclude_assign (hplace : m.lane.hasPlace id) (v : Variable) (report : Bool) :
    ∃ m', (conclude a i (.effect (.assign id v report))).on m = (.ok (), m') ∧ m'.world = m.world ∧
      m'.lane.value? = Function.update m.lane.value? id (some (i.assigned v)) := by
  obtain ⟨m', hm', -⟩ := conclude_effect (a := a) (i := i) (m := m) (e := .assign id v report)
    (by rintro _ _ _ ⟨⟩; exact hplace)
  refine ⟨m', hm', world_conclude hm', ?_⟩
  obtain ⟨_, m₁, hretire, hassign⟩ := ok_of_on_bind hm'
  cases (on_retire ..).symm.trans hretire
  obtain ⟨hretired, _, rfl⟩ := assign_ok hassign
  rw [Lane.value_bringIntoScope, Lane.value_assign hretired, Lane.value_retire]

/-- An intrinsic that is of none of the families computed from operands alone works on the machine. -/
theorem on_intrinsic_of_effect {e : Except Fault Effect} {m' : Machine} (htranscendental : op.isTranscendental = false)
    (hmath : m.lane.math? i op = none) (hbuiltin : op.builtin? = none) (hderivative : op.derivative? = none)
    (h : (effect s i op).on m = (e, m')) : (intrinsic s i op).on m = (e, m') := by
  unfold intrinsic
  rw [on_bind]
  show Step.on (if op.isTranscendental then _ else _) m = _
  rw [if_neg (by simp [htranscendental]), hmath, hbuiltin, hderivative]
  exact h

end Step

namespace Lane

variable {l : Lane} {w : World} {v : Variable} {report : Bool}

/-- The step of an intrinsic that asks for an assignment succeeds. It changes what the intrinsic changed, and the
    identifier. Subnormal numbers are kept. -/
theorem step_of_intrinsic (hfin : ¬ l.isFinished) (hnext : ∃ a, l.nextInstr s.program s.analyses = .ok (a, i))
    (hop : i.intrinsic? = some op) (hkeeps : op.isFlushing = false)
    (hon : (Step.intrinsic s i op).on { lane := l.advanced, world := w } = (.ok (.assign id v report), m))
    (hplace : m.lane.hasPlace id) :
    (∃ state, (l.step s w).result = .ok state) ∧ (l.step s w).world = m.world ∧
      (l.step s w).lane.value? = Function.update m.lane.value? id (some v) := by
  obtain ⟨a, hnext⟩ := hnext
  have hassigned : i.assigned v = v := if_neg (Instr.not_isFlushing_of_intrinsic hop hkeeps)
  obtain ⟨m', hm', hworld, hvalue⟩ := Step.conclude_assign (a := a) (i := i) hplace v report
  rw [step_of_execute hfin (Step.execute_iff.2 ⟨a, i, _, _, hnext, Step.on_instruction_of_intrinsic hop hon, hm'⟩)]
  rw [hassigned] at hvalue
  exact ⟨⟨_, rfl⟩, hworld, hvalue⟩

end Lane

end Lockstep
