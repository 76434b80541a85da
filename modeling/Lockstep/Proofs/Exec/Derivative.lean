import Lockstep.Proofs.Lane.Step

set_option autoImplicit false

/-! # Derivatives of lanes at one place

A derivative fails for want of other lanes, of operands or of floats. It fails because lanes are at
different places only when they are (`Lane.noDivergence_derivativeOf`), and so does a step that
executes one (`Lane.noDivergence_step`). -/

namespace Lockstep

/-- Whether the instruction takes a derivative of its operand. -/
def Instr.isDerivative (i : Instr) : Bool := i.intrinsic?.any fun op => op.derivative?.isSome

/-- A fault that says that lanes are at different places. -/
def Fault.isDivergence : Fault → Bool
  | .diverged _ => true
  | _ => false

variable {α β : Type}

/-- A computation that does not find lanes at different places. -/
def NoDivergence (x : Except Fault α) : Prop := ∀ fault, x = .error fault → ¬ fault.isDivergence

namespace NoDivergence

theorem ok (a : α) : NoDivergence (.ok a) := fun _ h => nomatch h

theorem error {fault : Fault} (h : ¬ fault.isDivergence) :
    NoDivergence (.error fault : Except Fault α) := by
  intro fault' h'
  cases h'
  exact h

theorem bind {x : Except Fault α} {f : α → Except Fault β} (hx : NoDivergence x)
    (hf : ∀ a, NoDivergence (f a)) : NoDivergence (x >>= f) := by
  cases x with
  | error fault => exact error (hx fault rfl)
  | ok a => exact hf a

theorem ite {c : Prop} [Decidable c] {x y : Except Fault α} (hx : c → NoDivergence x)
    (hy : ¬ c → NoDivergence y) : NoDivergence (if c then x else y) := by
  split
  · next hc => exact hx hc
  · next hc => exact hy hc

theorem map {x : Except Fault α} (f : α → β) (hx : NoDivergence x) : NoDivergence (x.map f) := by
  cases x with
  | error fault => exact error (hx fault rfl)
  | ok a => exact ok _

end NoDivergence

namespace Lane

variable {l : Lane} {lanes : List Lane} {i : Instr}

theorem noDivergence_operand (o : Operand) (flush : Bool) : NoDivergence (l.operand o flush) := by
  unfold operand
  refine .map _ ?_
  split
  · split
    · exact .ok _
    · exact .error (by simp [Fault.isDivergence])
  · exact .ok _
  · exact .ok _
  · exact .error (by simp [Fault.isDivergence])

theorem noDivergence_valueIn (index : Nat) (o : Operand) : NoDivergence (valueIn lanes index o) := by
  unfold valueIn
  split
  · exact .error (by simp [Fault.isDivergence])
  · exact noDivergence_operand _ _

theorem noDivergence_difference (a b : Variable) : NoDivergence (difference a b) := by
  unfold difference Variable.fillOr
  split
  · exact .ok _
  · exact .error (by simp [Fault.isDivergence])

theorem noDivergence_blank : NoDivergence i.blank := by
  unfold Instr.blank Instr.resultId
  refine .map _ ?_
  split
  · exact .ok _
  · exact .error (by simp [Fault.isDivergence])

/-- A derivative of lanes at one place does not find them at different places. -/
theorem noDivergence_derivative (h : ¬ diverged lanes) (o : Operand) (axis : Axis) (fine : Bool) :
    NoDivergence (l.derivative lanes o axis fine) := by
  unfold derivative
  refine .ite (fun _ => .error (by simp [Fault.isDivergence])) fun _ => ?_
  refine .ite (fun hdiv => absurd hdiv h) fun _ => ?_
  refine .bind (noDivergence_valueIn _ _) fun a => .bind (noDivergence_valueIn _ _) fun b => ?_
  exact noDivergence_difference a b

theorem noDivergence_derivativeOf (h : ¬ diverged lanes) (op : Intrinsic) (axis : Axis)
    (fine : Bool) : NoDivergence (l.derivativeOf lanes i op axis fine) := by
  unfold derivativeOf
  refine .bind noDivergence_blank fun ⟨id, result⟩ => ?_
  dsimp only
  split
  · exact .error (by simp [Fault.isDivergence])
  · refine .ite (fun _ => .ok _) fun _ => ?_
    exact .bind (noDivergence_derivative h _ axis fine) fun v => .ok _

end Lane

/-- An intrinsic that takes a derivative is not of another family. -/
theorem Intrinsic.of_derivative? {op : Intrinsic} {axis : Axis} {fine : Bool}
    (h : op.derivative? = some (axis, fine)) (l : Lane) (i : Instr) :
    op.isTranscendental = false ∧ l.math? i op = none ∧ op.builtin? = none := by
  cases op <;> cases h <;> exact ⟨rfl, rfl, rfl⟩

theorem Instr.eq_of_intrinsic? {i : Instr} {op : Intrinsic} (h : i.intrinsic? = some op) :
    i.op = .call ∧ i.callee = some (.intrinsic op) := by
  unfold intrinsic? at h
  split at h
  · next op' hcall hcallee =>
      cases h
      exact ⟨hcall, hcallee⟩
  · cases h

theorem Instr.not_isTerminator_of_intrinsic? {i : Instr} {op : Intrinsic}
    (h : i.intrinsic? = some op) : ¬ i.isTerminator := by
  unfold isTerminator
  rw [(i.eq_of_intrinsic? h).1]
  exact Bool.false_ne_true

theorem Instr.eq_of_isDerivative {i : Instr} (h : i.isDerivative) :
    ∃ op axis fine, i.intrinsic? = some op ∧ op.derivative? = some (axis, fine) := by
  obtain ⟨op, hop, hd⟩ := (Option.any_eq_true _ _).1 h
  obtain ⟨⟨axis, fine⟩, hd⟩ := Option.isSome_iff_exists.1 hd
  exact ⟨op, axis, fine, hop, hd⟩

theorem Instr.not_isTerminator_of_isDerivative {i : Instr} (h : i.isDerivative) :
    ¬ i.isTerminator := by
  obtain ⟨_, _, _, hop, -⟩ := i.eq_of_isDerivative h
  exact i.not_isTerminator_of_intrinsic? hop

namespace Step

variable {s : Setting} {i : Instr}

/-- A call of an intrinsic does what the intrinsic does. -/
theorem on_instruction_of_intrinsic {op : Intrinsic} {m m' : Machine} {x : Except Fault Effect}
    (hop : i.intrinsic? = some op) (h : (intrinsic s i op).on m = (x, m')) :
    (instruction s i).on m = (x.map Outcome.effect, m') := by
  obtain ⟨hcall, hcallee⟩ := i.eq_of_intrinsic? hop
  have hcompute : (compute s i).on m = (x, m') := by
    unfold compute
    rw [on_bind]
    simp only [hcall, call, hcallee]
    exact h
  unfold instruction
  rw [if_neg (i.not_isTerminator_of_intrinsic? hop), on_bind, hcompute]
  cases x <;> rfl

theorem on_intrinsic {op : Intrinsic} {axis : Axis} {fine : Bool}
    (h : op.derivative? = some (axis, fine)) (m : Machine) :
    (intrinsic s i op).on m =
      (m.lane.derivativeOf (s.groupWith m.lane) i op axis fine, m) := by
  obtain ⟨htranscendental, hmath, hbuiltin⟩ := Intrinsic.of_derivative? h m.lane i
  unfold intrinsic
  rw [on_bind]
  show Step.on (if op.isTranscendental then _ else _) m = _
  rw [if_neg (by simp [htranscendental]), hmath, hbuiltin, h]
  rfl

/-- An instruction that takes a derivative computes it from the lanes as they are. -/
theorem on_instruction (h : i.isDerivative) (m : Machine) :
    ∃ op axis fine, (instruction s i).on m =
      ((m.lane.derivativeOf (s.groupWith m.lane) i op axis fine).map Outcome.effect, m) := by
  obtain ⟨op, axis, fine, hop, hd⟩ := i.eq_of_isDerivative h
  exact ⟨op, axis, fine, on_instruction_of_intrinsic hop (on_intrinsic hd m)⟩

/-! ## Steps -/

variable {a : FunctionAnalysis} {m m' : Machine} {fault : Fault}

theorem noDivergence_assign {id : Id} {v : Variable} {report : Bool}
    (h : (assign i id v report).on m = (.error fault, m')) : ¬ fault.isDivergence := by
  unfold assign at h
  rcases error_of_on_bind h with h | ⟨l, m₁, -, h⟩
  · cases h
  · rcases error_of_guard h with ⟨rfl, -⟩ | h
    · simp [Fault.isDivergence]
    · cases report with
      | false => cases h
      | true =>
          rcases error_of_on_bind h with h | ⟨_, m₂, -, h⟩
          · cases (on_announce ..).symm.trans h
          · cases h

theorem noDivergence_apply {e : Effect} (h : (apply a i e).on m = (.error fault, m')) :
    ¬ fault.isDivergence := by
  cases e with
  | proceed =>
      cases (on_retire ..).symm.trans h
  | assign id v report =>
      rcases error_of_on_bind h with h | ⟨_, m₁, -, h⟩
      · cases (on_retire ..).symm.trans h
      · exact noDivergence_assign h
  | kill => cases h

/-- A step that takes a derivative of lanes at one place does not find them at different places. -/
theorem noDivergence_execute (hnext : m.lane.nextInstr s.program s.analyses = .ok (a, i))
    (hi : i.isDerivative) (hdiv : ¬ diverged (s.groupWith m.lane.advanced))
    (h : (execute s).on m = (.error fault, m')) : ¬ fault.isDivergence := by
  unfold execute at h
  -- the parts in order: what comes before the instruction succeeds, what comes behind it drops and
  -- assigns
  rcases error_of_on_bind h with h | ⟨l, m₁, hlane, h⟩
  · cases h
  · cases hlane
    rcases error_of_on_bind h with h | ⟨⟨a', i'⟩, m₂, hlift, h⟩
    · cases hnext.symm.trans (congrArg Prod.fst h)
    · obtain ⟨hresult, rfl⟩ := Prod.mk.inj hlift
      cases hnext.symm.trans hresult
      rcases error_of_on_bind h with h | ⟨_, m₃, hadvance, h⟩
      · cases h
      · cases hadvance
        obtain ⟨op, axis, fine, hon⟩ := on_instruction (s := s) hi
          { m with lane := m.lane.advanced }
        have hno := Lane.noDivergence_derivativeOf (l := m.lane.advanced) (i := i) hdiv op axis fine
        rcases error_of_on_bind h with h | ⟨o, m₄, ho, h⟩
        · exact (hno.map Outcome.effect) fault (congrArg Prod.fst (hon.symm.trans h))
        · have ho := congrArg Prod.fst (hon.symm.trans ho)
          obtain ⟨e, -, rfl⟩ := ok_of_map ho
          exact noDivergence_apply h

end Step

theorem Lane.noDivergence_step {l : Lane} {s : Setting} {w : World} {a : FunctionAnalysis}
    {i : Instr} (hnext : l.nextInstr s.program s.analyses = .ok (a, i)) (hi : i.isDerivative)
    (hdiv : ¬ diverged (s.groupWith l.advanced)) : NoDivergence (l.step s w).result := by
  unfold step
  by_cases hl : l.isFinished
  · rw [if_pos hl]
    exact .ok _
  · rw [if_neg hl]
    split
    · next fault m' h =>
        exact .error (Step.noDivergence_execute (m := { lane := l, world := w }) hnext hi hdiv h)
    · exact .ok _

end Lockstep
