import Lockstep.Proofs.Lane.Integer
import Lockstep.Proofs.Lane.Register

set_option autoImplicit false

/-! # Division and multiplication intrinsics

The intrinsics that divide or multiply integers put one number into their result. A result of the operands' type is
that number. A result of two numbers keeps its own members, which stay zero, and a member is all that can be taken
from it (`Lane.numbers_combined`, `Lane.divisions_loses_member`). -/

namespace Lockstep

/-- The number that an intrinsic is meant to compute of two numbers of `n` bits: the quotient, all of whose bits are
    set if the divisor is zero, or the low bits of the product. -/
def Intrinsic.combined? {n : Nat} (op : Intrinsic) (x y : BitVec n) : Option (BitVec n) :=
  match op with
  | .uDiv => some (if y = 0 then .allOnes n else x / y)
  | .iMul | .uMul => some (x * y)
  | _ => none

section

variable {op : Intrinsic} {n : Nat} {x y z : BitVec n}

theorem Intrinsic.meaning_of_combined (h : op.combined? x y = some z) :
    ∃ f, op.intOp? = some f ∧ f.meaning x y = z := by
  cases op with
  | uDiv => exact ⟨.uDiv, rfl, Option.some.inj h⟩
  | iMul | uMul => exact ⟨.mul, rfl, Option.some.inj h⟩
  | _ => cases h

theorem Intrinsic.not_isFlushing_of_intOp {f : IntOp} (h : op.intOp? = some f) : op.isFlushing = false := by
  cases op <;> first | rfl | cases h

end

/-- An intrinsic of two integers computes from its operands alone. -/
theorem Step.on_intrinsic_of_intOp {s : Setting} {i : Instr} {m : Machine} {op : Intrinsic} {f : IntOp}
    (h : op.intOp? = some f) : (intrinsic s i op).on m = (m.lane.intMath i f, m) := by
  unfold intrinsic
  rw [on_bind]
  cases op <;> cases h <;> rfl

namespace Lane

/-- The lane is about to divide or multiply two numbers of `n` bits, which are meant to give `z`. -/
structure Combines (l : Lane) (s : Setting) (i : Instr) (id : Id) (n : Nat) (z : BitVec n) : Prop where
  about : l.AboutTo s.program s.analyses i id
  width : n ∈ ScalarKind.int.widths
  operands : ∃ op a b, i.intrinsic? = some op ∧ l.arg i 0 = .ok a ∧ l.arg i 1 = .ok b ∧ a.elem = (Ty.int n).elem ∧
    op.combined? (lowBits n (a.get 0)) (lowBits n (b.get 0)) = some z

variable {l : Lane} {s : Setting} {w : World} {i : Instr} {id : Id} {n : Nat} {z : BitVec n}

/-- The step puts the number into the zero of the result's type. -/
theorem Combines.step (h : l.Combines s i id n z) :
    l.Gives s w id (· = (Variable.zeroed (i.resultName id) i.ty).set 0 (wordOf z)) := by
  obtain ⟨op, a, b, hop, ha, hb, helem, hz⟩ := h.operands
  obtain ⟨f, hf, hmeaning⟩ := Intrinsic.meaning_of_combined hz
  obtain ⟨h0, hn⟩ := ScalarKind.le_of_mem_widths h.width
  have hbits : a.elem.bits = n := by
    rw [helem]
    exact ScalarKind.bits_elem h.width
  have hmath : l.advanced.intMath i f =
      .ok (.value id ((Variable.zeroed (i.resultName id) i.ty).set 0 (wordOf z))) := by
    unfold intMath
    rw [h.about.blank, show l.advanced.arg i 0 = .ok a from ha, show l.advanced.arg i 1 = .ok b from hb]
    show Except.ok (Effect.value id (Variable.set _ 0 (f.apply a.elem.bits _ _))) = _
    rw [hbits, f.apply_eq h0 hn, hmeaning]
  have hon : (Step.intrinsic s i op).on { lane := l.advanced, world := w } = _ := Step.on_intrinsic_of_intOp hf
  rw [hmath] at hon
  obtain ⟨hok, hworld, hvalue⟩ := step_of_intrinsic h.about.running h.about.next hop
    (Intrinsic.not_isFlushing_of_intOp hf) hon h.about.place
  exact ⟨hok, hworld, _, hvalue, rfl⟩

/-- To divide or to multiply two numbers always gives a result. Of the type of the numbers it is the number that was
    meant. As a structure of two such numbers it is one from which either member can be taken, and both are zero. -/
theorem numbers_combined (h : l.Combines s i id n z) :
    l.Gives s w id fun r =>
      (i.ty = .int n → r.elem = (Ty.int n).elem ∧ r.get 0 = wordOf z) ∧
      ∀ name, i.ty = .struct name [.int n, .int n] →
        ∀ {l' : Lane} {s' : Setting} {i' : Instr} {id' : Id} {c : Nat} (w' : World), l'.Extracts s' i' id' r c → c < 2 →
          l'.Gives s' w' id' fun x => x.elem = (Ty.int n).elem ∧ x.get 0 = 0 := by
  refine h.step.mono ?_
  rintro _ rfl
  refine ⟨fun hty => ⟨?_, ?_⟩, fun name hty {l' s' i' id' c} w' hextracts hc => ?_⟩
  · rw [hty]
    exact Variable.elem_zeroed _ _
  · exact Value.get_set_self _ (by decide) _
  · -- the number went into the components of the structure, which has members
    have hmember : ((Variable.zeroed (i.resultName id) i.ty).set 0 (wordOf z)).members[c]? =
        some (Variable.zeroed ("_child" ++ toString c) (.int n)) := by
      rw [hty]
      obtain rfl | rfl : c = 0 ∨ c = 1 := by omega
      all_goals rfl
    refine (hextracts.step_of_member hmember).mono ?_
    rintro _ rfl
    exact ⟨Variable.elem_zeroed _ _, Value.get_zero 0⟩

/-- Seven divided by two, as a number. -/
def divide : Instr :=
  { op := .call, callee := some (.intrinsic .uDiv), ty := .int 32, result := some ⟨0⟩,
    args := [.const (.int 32 7), .const (.int 32 2)] }

/-- The same as two numbers. -/
def divideBoth : Instr :=
  { op := .call, callee := some (.intrinsic .uDiv), ty := .struct "" [.int 32, .int 32], result := some ⟨1⟩,
    args := [.const (.int 32 7), .const (.int 32 2)] }

/-- Divides in both ways, and takes the first of the two numbers. -/
def divisions : Program :=
  { stage := .compute
    functions := #[{ name := "divisions", blocks := #[{}], instrs := #[divide, divideBoth,
      { op := .extractVal, ty := .int 32, result := some ⟨2⟩, args := [.ref ⟨1⟩, .const (.int 32 0)] },
      { op := .ret }] }]
    idCount := 3 }

/-- Seven divided by two is three. -/
theorem divisions_gives_number :
    ∃ (s₀ : Session) (l : Lane) (r : Variable), Session.new divisions {} {} [{}] 0 {} = .ok s₀ ∧
      let s := s₀.start.session
      s.lanes[0]? = some l ∧ l.Combines (s.setting .unbound 0) divide ⟨0⟩ 32 3#32 ∧
      (l.step (s.setting .unbound 0) s.world).lane.value? ⟨0⟩ = some r ∧ r.get 0 = 3 := by
  have h : ∃ s₀, Session.new divisions {} {} [{}] 0 {} = .ok s₀ ∧ ∃ states, s₀.start.result = .ok states ∧
      ∃ l, s₀.start.session.lanes[0]? = some l ∧
      ((¬ l.isFinished ∧ l.hasPlace ⟨0⟩) ∧ (s₀.start.session.analyses.of? l.function).isSome ∧
        l.function = 0 ∧ l.instr = 0 ∧ (∃ a, l.arg divide 0 = .ok a ∧ (a.elem = .sInt ∧ a.get 0 = 7)) ∧
        ∃ b, l.arg divide 1 = .ok b ∧ b.get 0 = 2) := by
    decide +kernel
  obtain ⟨s₀, hnew, states, hstart, l, hl, hready, hanalysis, hfunction, hinstr, ⟨a, ha, helem, hx⟩, b, hb, hy⟩ := h
  have hprogram : s₀.start.session.program = divisions :=
    (Session.Reached.started hstart).program_eq.trans (Session.fresh_of_new hnew).program
  have hat : l.AboutTo s₀.start.session.program s₀.start.session.analyses divide ⟨0⟩ :=
    .of_program hprogram hready hanalysis hfunction hinstr rfl rfl
  have hcombines : l.Combines (s₀.start.session.setting .unbound 0) divide ⟨0⟩ 32 3#32 := by
    refine ⟨hat, by decide, _, a, b, rfl, ha, hb, helem, ?_⟩
    rw [hx, hy]
    decide
  obtain ⟨-, -, r, hr, hnumber, -⟩ := numbers_combined (w := s₀.start.session.world) hcombines
  exact ⟨s₀, l, r, hnew, hl, hcombines, by rw [hr, Function.update_self], (hnumber rfl).2⟩

set_option synthInstance.maxSize 512 in
/-- Taken from two numbers, seven divided by two is zero. -/
theorem divisions_loses_member :
    ∃ s₀, Session.new divisions {} {} [{}] 0 {} = .ok s₀ ∧
      (∃ s, s₀.start.session.advance .unbound 1 = .ok s ∧ ∃ l, s.lanes[0]? = some l ∧
        ∃ next, l.nextInstr s.program s.analyses = .ok next ∧ (next.2.intrinsic? = some .uDiv ∧
          next.2.ty.structMembers?.map (·.map Ty.elem) = some [.sInt, .sInt]) ∧
        ∃ a, l.arg next.2 0 = .ok a ∧ ∃ b, l.arg next.2 1 = .ok b ∧
          Intrinsic.uDiv.combined? (lowBits 32 (a.get 0)) (lowBits 32 (b.get 0)) = some 3#32) ∧
      ∃ s, s₀.start.session.advance .unbound 2 = .ok s ∧ ∃ l, s.lanes[0]? = some l ∧
        ∃ next, l.nextInstr s.program s.analyses = .ok next ∧ (next.2.op = .extractVal ∧
          next.2.args.length = 2) ∧ (∃ source, next.2.argId 0 = .ok source ∧ source = ⟨1⟩) ∧
        (∃ c, l.argNat next.2 1 = .ok c ∧ c = 0) ∧
        ∃ x, (l.step (s.setting .unbound 0) s.world).lane.value? ⟨2⟩ = some x ∧
          (x.get 0 = 0 ∧ x.get 0 ≠ wordOf 3#32) := by
  decide +kernel

end Lane

end Lockstep
