import Lockstep.Exec.Dispatch
import Lockstep.Proofs.Except
import Mathlib.Data.List.Basic
import Mathlib.Data.Option.Basic

set_option autoImplicit false

/-! # What instructions find unassigned

A computation fails for want of a value when it reads an identifier that has none. Of an instruction that
only computes, this is one of its operands (`Lane.Lacks`), in its own lane or, where it looks at the lanes
of its quad, in one of them (`Lane.LacksAround`): one lemma for each family. -/

namespace Lockstep

variable {α β : Type}

/-- What was read before it was assigned. -/
def Fault.unassigned? : Fault → Option Id
  | .unassignedRead id => some id
  | _ => none

/-- What a computation finds unassigned, if it fails for that, has a property. -/
def Finds (Q : Id → Prop) (x : Except Fault α) : Prop := ∀ id, x = .error (.unassignedRead id) → Q id

namespace Finds

variable {Q Q' : Id → Prop} {x : Except Fault α} {f : α → Except Fault β}

theorem ok (a : α) : Finds Q (.ok a) := fun _ h => nomatch h

theorem error {fault : Fault} (h : fault.unassigned? = none) :
    Finds Q (.error fault : Except Fault α) := by
  intro id hid
  cases hid
  cases h

theorem imp (h : Finds Q x) (hQ : ∀ id, Q id → Q' id) : Finds Q' x := fun id hid => hQ id (h id hid)

/-- The rest may use that the first part succeeds. -/
theorem bind_ok (hx : Finds Q x) (hf : ∀ a, x = .ok a → Finds Q (f a)) : Finds Q (x >>= f) := by
  cases x with
  | error fault =>
      intro id hid
      cases hid
      exact hx id rfl
  | ok a => exact hf a rfl

theorem bind (hx : Finds Q x) (hf : ∀ a, Finds Q (f a)) : Finds Q (x >>= f) :=
  .bind_ok hx fun a _ => hf a

theorem map (hx : Finds Q x) (g : α → β) : Finds Q (x.map g) := fun id hid => hx id (error_of_map hid)

theorem ite {c : Prop} [Decidable c] {x y : Except Fault α} (hx : c → Finds Q x)
    (hy : ¬ c → Finds Q y) : Finds Q (if c then x else y) := by
  split
  · next hc => exact hx hc
  · next hc => exact hy hc

/-- A computation that is given up on a condition. -/
theorem guard {c : Prop} [Decidable c] {fault : Fault} {x : Unit → Except Fault α}
    (hfault : fault.unassigned? = none) (hx : ¬ c → Finds Q (x ())) :
    Finds Q (if c then throw fault >>= x else x ()) :=
  .ite (fun _ => .error hfault) hx

/-- The same computation for each element of a list. -/
theorem mapM {g : α → Except Fault β} (h : ∀ a, Finds Q (g a)) (xs : List α) : Finds Q (xs.mapM g) := by
  induction xs with
  | nil => exact .ok _
  | cons a xs ih =>
      rw [List.mapM_cons]
      exact .bind (h a) fun b => .bind ih fun bs => .ok _

end Finds

/-! ## What does not read -/

namespace Instr

variable {Q : Id → Prop} {i : Instr} {op : Intrinsic}

theorem finds_resultId : Finds Q i.resultId := by
  unfold resultId
  split
  · exact .ok _
  · exact .error rfl

theorem finds_blank : Finds Q i.blank := finds_resultId.map _

theorem finds_argId (index : Nat) : Finds Q (i.argId index) := by
  unfold argId
  split
  · exact .ok _
  · exact .error rfl

theorem finds_loadedTypes : Finds Q (i.loadedTypes op) := by
  unfold loadedTypes
  split
  · exact .ok _
  · exact .error rfl

theorem finds_sampleResult (id : Id) : Finds Q (i.sampleResult op id) := by
  unfold sampleResult
  refine .ite (fun _ => .ok _) fun _ => ?_
  split
  · exact .ok _
  · exact .error rfl

end Instr

theorem Variable.finds_fillOr {Q : Id → Prop} {v : Variable} {fault : Fault} {f : Nat → Option UInt64}
    (hfault : fault.unassigned? = none) : Finds Q (v.fillOr fault f) :=
  .ite (fun _ => .ok _) fun _ => .error hfault

namespace Lane

variable {i : Instr} {l : Lane} {op : Intrinsic}

/-- An operand of an instruction has no value. -/
structure Lacks (i : Instr) (l : Lane) (id : Id) : Prop where
  arg : .ref id ∈ i.args
  value : l.value? id = none

/-- In a pixel quad whose lanes are at one place, an operand of an instruction has no value in one of the
    lanes. -/
structure LacksAround (i : Instr) (l : Lane) (lanes : List Lane) (id : Id) : Prop where
  arg : .ref id ∈ i.args
  quad : isPixelQuad l.stage lanes
  together : ¬ diverged lanes
  lane : ∃ m ∈ lanes, m.value? id = none

/-! ## Operands -/

theorem finds_operand {o : Operand} (ho : o ∈ i.args) (flush : Bool) :
    Finds (l.Lacks i) (l.operand o flush) := by
  unfold operand
  refine .map ?_ _
  split
  · next id =>
      split
      · exact .ok _
      · next hnone =>
          rintro _ ⟨⟩
          exact ⟨ho, hnone⟩
  · exact .ok _
  · exact .ok _
  · exact .error rfl

theorem finds_arg (index : Nat) : Finds (l.Lacks i) (l.arg i index) := by
  unfold arg
  split
  · exact .error rfl
  · next o ho => exact finds_operand (List.mem_of_getElem? ho) _

theorem finds_argWord (index : Nat) : Finds (l.Lacks i) (l.argWord i index) := (finds_arg index).map _

theorem finds_argWord32 (index : Nat) : Finds (l.Lacks i) (l.argWord32 i index) :=
  (finds_arg index).map _

theorem finds_argNat (index : Nat) : Finds (l.Lacks i) (l.argNat i index) :=
  (finds_argWord32 index).map _

theorem finds_argSingle (index : Nat) : Finds (l.Lacks i) (l.argSingle i index) :=
  (finds_arg index).map _

theorem finds_argWord32OrZero (index : Nat) : Finds (l.Lacks i) (l.argWord32OrZero i index) :=
  .ite (fun _ => finds_argWord32 index) fun _ => .ok _

theorem finds_argSingleOrZero (index : Nat) : Finds (l.Lacks i) (l.argSingleOrZero i index) :=
  .ite (fun _ => finds_argSingle index) fun _ => .ok _

/-! ## Branches and choices -/

theorem finds_branch : Finds (l.Lacks i) (l.branch i) := by
  unfold branch
  split
  · exact .ok _
  · exact (finds_argWord 2).map _
  · exact .error rfl

theorem finds_switchTarget (value : UInt64) (default : Nat) {cases : List Operand}
    (hcases : ∀ o ∈ cases, o ∈ i.args) : Finds (l.Lacks i) (l.switchTarget value default cases) := by
  fun_induction switchTarget l value default cases with
  | case1 => exact .ok _
  | case2 case target rest ih =>
      have hrest := fun o ho => hcases o (List.mem_cons_of_mem _ (List.mem_cons_of_mem _ ho))
      exact .bind (finds_operand (hcases case List.mem_cons_self) false) fun v =>
        .ite (fun _ => .ok _) fun _ => ih hrest
  | case3 => exact .error rfl

theorem finds_switch : Finds (l.Lacks i) (l.switch i) := by
  unfold switch
  refine .bind (finds_argWord 0) fun value => ?_
  split
  · exact .error rfl
  · exact .bind (finds_switchTarget value _ fun o ho => List.mem_of_mem_drop ho) fun _ => .ok _

theorem finds_terminate : Finds (l.Lacks i) (l.terminate i) := by
  unfold terminate
  split
  · exact .ok _
  · exact .ok _
  · exact finds_branch
  · exact finds_switch
  · exact .error rfl

theorem finds_phiOperand {Q : Id → Prop} (pred : Nat) (args : List Operand) :
    Finds Q (phiOperand pred args) := by
  fun_induction phiOperand pred args with
  | case1 => exact .ok _
  | case2 => exact .ok _
  | case3 _ _ _ _ ih => exact ih
  | case4 => exact .error rfl

/-- A phi node finds unassigned what it reads for the block that control came from. -/
theorem finds_phi : Finds (fun id => phiOperand l.previousBlock i.args = .ok (some (.ref id)) ∧
    l.phiValues.get? id = none) (l.phi i) := by
  unfold phi
  refine .bind Instr.finds_resultId fun id => .bind_ok (finds_phiOperand _ _) fun o ho => ?_
  split
  · exact .error rfl
  · split
    · next hnone =>
        rintro _ ⟨⟩
        exact ⟨ho, hnone⟩
    · exact .ok _
  · next o hno =>
      refine .bind ?_ fun _ => .ok _
      cases o with
      | ref src => exact absurd rfl (hno src)
      | const c => exact .ok _
      | undef ty => exact .ok _
      | block b => exact .error rfl

theorem finds_select : Finds (l.Lacks i) (l.select i) := by
  unfold select
  refine .bind Instr.finds_resultId fun id => .bind (finds_arg 2) fun cond => ?_
  refine .bind (finds_arg 0) fun ifTrue => ?_
  refine .ite (fun _ => .bind ((finds_arg 1).map _) fun _ => .ok _) fun _ => ?_
  exact .ite (fun _ => .ok _) fun _ => .bind (finds_arg 1) fun _ => .ok _

/-! ## Numbers and vectors -/

theorem finds_arithmetic : Finds (l.Lacks i) (l.arithmetic i) := by
  unfold arithmetic
  refine .bind Instr.finds_blank fun ⟨id, result⟩ => .bind (finds_arg 0) fun a => ?_
  refine .bind (finds_arg 1) fun b => ?_
  split
  · exact .guard rfl fun _ => .ok _
  · split
    · exact .bind (Variable.finds_fillOr rfl) fun _ => .ok _
    · exact .error rfl

theorem finds_compare : Finds (l.Lacks i) (l.compare i) := by
  unfold compare
  refine .bind Instr.finds_blank fun ⟨id, result⟩ => .bind (finds_arg 0) fun a => ?_
  exact .bind (finds_arg 1) fun b => .bind (Variable.finds_fillOr rfl) fun _ => .ok _

theorem finds_cast : Finds (l.Lacks i) (l.cast i) := by
  unfold cast
  refine .bind Instr.finds_blank fun ⟨id, result⟩ => .bind (finds_arg 0) fun a => ?_
  refine .ite (fun _ => .guard rfl fun _ => .ok _) fun _ => ?_
  exact .bind (Variable.finds_fillOr rfl) fun _ => .ok _

theorem finds_extractFrom (id : Id) (result current : Variable) (index count : Nat) :
    Finds (l.Lacks i) (l.extractFrom i id result current index count) := by
  induction count generalizing current index with
  | zero => exact .ok _
  | succ n ih =>
      rw [extractFrom]
      refine .bind (finds_argNat index) fun pick => ?_
      refine .ite (fun _ => .guard rfl fun _ => .ok _) fun _ => ?_
      split
      · exact .error rfl
      · exact ih _ _

theorem finds_shufflePick {Q : Id → Prop} (a b : Variable) (pick : Nat) :
    Finds Q (shufflePick a b pick) :=
  .ite (fun _ => .ok _) fun _ => .ite (fun _ => .ok _) fun _ => .error rfl

theorem finds_vector : Finds (l.Lacks i) (l.vector i) := by
  unfold vector
  refine .bind Instr.finds_blank fun ⟨id, result⟩ => .bind (finds_arg 0) fun a => ?_
  split
  · exact .guard rfl fun _ => finds_extractFrom _ _ _ _ _
  · exact .bind (finds_argNat 1) fun pick => .guard rfl fun _ => .ok _
  · exact .bind (finds_arg 1) fun b => .bind (finds_argNat 2) fun pick => .guard rfl fun _ => .ok _
  · refine .bind (finds_arg 1) fun b => .bind (finds_arg 2) fun picks => ?_
    exact .bind (.mapM (fun c => finds_shufflePick _ _ _) _) fun words => .ok _
  · exact .error rfl

/-! ## Mathematical intrinsics -/

theorem finds_dotFrom (elem : ElemType) (size : Nat) (acc : UInt64) (c count : Nat) :
    Finds (l.Lacks i) (l.dotFrom i op elem size acc c count) := by
  induction count generalizing acc c with
  | zero => exact .ok _
  | succ n ih =>
      rw [dotFrom]
      refine .bind (finds_argWord c) fun a => .bind (finds_argWord (size + c)) fun b => ?_
      split
      · exact ih _ _
      · exact .error rfl

theorem finds_floatMath (floatOp : FloatOp) : Finds (l.Lacks i) (l.floatMath i op floatOp) := by
  unfold floatMath
  refine .bind Instr.finds_blank fun ⟨id, result⟩ => .bind (finds_arg 0) fun a => ?_
  refine .bind (finds_arg 1) fun b => ?_
  split
  · exact .ok _
  · exact .error rfl

theorem finds_floatMulAdd : Finds (l.Lacks i) (l.floatMulAdd i op) := by
  unfold floatMulAdd
  refine .bind Instr.finds_blank fun ⟨id, result⟩ => .bind (finds_arg 0) fun a => ?_
  refine .bind (finds_arg 1) fun b => .bind (finds_arg 2) fun c => ?_
  dsimp only
  split
  · exact .ok _
  · exact .error rfl

theorem finds_otherMath {x : Except Fault Effect} (hx : l.otherMath? i op = some x) :
    Finds (l.Lacks i) x := by
  unfold otherMath? at hx
  split at hx <;> cases hx
  · exact finds_floatMath _
  · exact finds_floatMath _
  · exact finds_floatMulAdd
  · exact finds_floatMulAdd
  · exact .bind Instr.finds_blank fun ⟨_, _⟩ => .bind (finds_arg 0) fun _ => .bind (finds_arg 1) fun _ =>
      .bind (finds_arg 2) fun _ => .ok _
  · exact .bind Instr.finds_blank fun ⟨_, _⟩ => .bind (finds_arg 0) fun _ => .bind (finds_arg 1) fun _ =>
      .bind (finds_arg 2) fun _ => .ok _
  · exact .bind Instr.finds_blank fun ⟨_, _⟩ => .bind (finds_argWord32 0) fun _ =>
      .bind (finds_argWord32 1) fun _ => .ok _
  · refine .bind Instr.finds_blank fun ⟨_, result⟩ => .bind (finds_argWord 0) fun _ => ?_
    dsimp only
    split
    · exact .ok _
    · exact .ok _
  · exact .bind Instr.finds_blank fun ⟨_, _⟩ => .bind (finds_argSingle 0) fun _ => .ok _
  · exact .bind Instr.finds_blank fun ⟨_, _⟩ => .bind (finds_argWord32 0) fun _ => .ok _

theorem finds_math {x : Except Fault Effect} (hx : l.math? i op = some x) : Finds (l.Lacks i) x := by
  unfold math? at hx
  simp only [Option.orElse_eq_some, Option.map_eq_some_iff] at hx
  rcases hx with ⟨fn, -, rfl⟩ | ⟨-, ⟨test, -, rfl⟩ | ⟨-, ⟨intOp, -, rfl⟩ | ⟨-, ⟨size, -, rfl⟩ |
    ⟨-, ⟨fn, -, rfl⟩ | ⟨-, hx⟩⟩⟩⟩⟩
  · exact .bind Instr.finds_blank fun ⟨_, _⟩ => .bind (finds_arg 0) fun _ =>
      .bind (Variable.finds_fillOr rfl) fun _ => .ok _
  · exact .bind Instr.finds_blank fun ⟨_, _⟩ => .bind (finds_arg 0) fun _ => .guard rfl fun _ => .ok _
  · exact .bind Instr.finds_blank fun ⟨_, _⟩ => .bind (finds_arg 0) fun _ => .bind (finds_arg 1) fun _ =>
      .ok _
  · exact .bind Instr.finds_blank fun ⟨_, _⟩ => .bind (finds_dotFrom _ _ _ _ _) fun _ => .ok _
  · exact .bind Instr.finds_blank fun ⟨_, _⟩ => .bind (finds_arg 0) fun _ => .guard rfl fun _ => .ok _
  · exact finds_otherMath hx

/-! ## Signature and builtin values -/

theorem finds_signatureComponent {Q : Id → Prop} (side : SignatureSide) (v : Variable)
    (element row column : Nat) : Finds Q (signatureComponent side v element row column) := by
  unfold signatureComponent
  split
  · exact .error rfl
  · split
    · exact .error rfl
    · exact .ok _

theorem finds_loadInput : Finds (l.Lacks i) (l.loadInput i) := by
  unfold loadInput
  refine .bind Instr.finds_blank fun ⟨id, result⟩ => .bind (finds_argNat 0) fun element => ?_
  refine .bind (finds_argNat 1) fun row => .bind (finds_argNat 2) fun column => ?_
  exact .bind (finds_signatureComponent _ _ _ _ _) fun ⟨e, c⟩ => .ok _

theorem finds_storeOutput (recording : Bool) : Finds (l.Lacks i) (l.storeOutput i recording) := by
  unfold storeOutput
  refine .bind (finds_argNat 0) fun element => .bind (finds_argNat 1) fun row => ?_
  refine .bind (finds_argNat 2) fun column => .bind (finds_arg 3) fun v => ?_
  refine .ite (fun _ => .ok _) fun _ => ?_
  exact .bind (finds_signatureComponent _ _ _ _ _) fun ⟨e, c⟩ => .ok _

theorem finds_readBuiltin (b : Bindings) (builtin : Builtin) :
    Finds (l.Lacks i) (l.readBuiltin b i op builtin) := by
  unfold readBuiltin
  refine .bind Instr.finds_blank fun ⟨id, result⟩ => ?_
  dsimp only
  refine .ite (fun _ => .bind (.ok _) fun component => ?_) fun _ =>
    .bind (finds_argNat 0) fun component => ?_
  all_goals
    split
    · exact .error rfl
    · exact .guard rfl fun _ => .ok _

/-! ## The group -/

theorem finds_valueIn {lanes : List Lane} (index : Nat) {o : Operand} (ho : o ∈ i.args) :
    Finds (fun id => .ref id ∈ i.args ∧ ∃ m ∈ lanes, m.value? id = none) (valueIn lanes index o) := by
  unfold valueIn
  split
  · exact .error rfl
  · next m hm => exact (finds_operand ho true).imp fun id h => ⟨h.arg, m, List.mem_of_getElem? hm, h.value⟩

theorem finds_derivative {lanes : List Lane} (hquad : isPixelQuad l.stage lanes) {o : Operand}
    (ho : o ∈ i.args) (axis : Axis) (fine : Bool) :
    Finds (l.LacksAround i lanes) (l.derivative lanes o axis fine) := by
  unfold derivative
  refine .ite (fun _ => .error rfl) fun _ => .ite (fun _ => .error rfl) fun hdiv => ?_
  have hvalue : ∀ index, Finds (l.LacksAround i lanes) (valueIn lanes index o) := fun index =>
    (finds_valueIn index ho).imp fun id h => ⟨h.1, hquad, hdiv, h.2⟩
  exact .bind (hvalue _) fun a => .bind (hvalue _) fun b => Variable.finds_fillOr rfl

theorem finds_derivativeOf (lanes : List Lane) (axis : Axis) (fine : Bool) :
    Finds (l.LacksAround i lanes) (l.derivativeOf lanes i op axis fine) := by
  unfold derivativeOf
  refine .bind Instr.finds_blank fun ⟨id, result⟩ => ?_
  dsimp only
  split
  · exact .error rfl
  · next o ho =>
      refine .ite (fun _ => .ok _) fun hquad => ?_
      have hquad : isPixelQuad l.stage lanes := by simpa using hquad
      exact .bind (finds_derivative hquad (List.mem_of_head? ho) axis fine) fun v => .ok _

theorem finds_coordinateDerivatives {lanes : List Lane} (hquad : isPixelQuad l.stage lanes)
    (ddx ddy : Variable) (c : Nat) {coords : List Operand} (hcoords : ∀ o ∈ coords, o ∈ i.args) :
    Finds (l.LacksAround i lanes) (l.coordinateDerivatives lanes ddx ddy c coords) := by
  induction coords generalizing ddx ddy c with
  | nil => exact .ok _
  | cons o rest ih =>
      have hrest := fun o ho => hcoords o (List.mem_cons_of_mem _ ho)
      have hderivative := fun axis =>
        finds_derivative (l := l) hquad (hcoords o List.mem_cons_self) axis false
      rw [coordinateDerivatives]
      refine .ite (fun _ => ih _ _ _ hrest) fun _ => ?_
      exact .bind (hderivative .x) fun dx => .bind (hderivative .y) fun dy => ih _ _ _ hrest

theorem finds_barrier (lanes : List Lane) : Finds (l.Lacks i) (l.barrier lanes i) := by
  unfold barrier
  exact .bind (finds_argWord32 0) fun mode => .guard rfl fun _ => .ok _

theorem finds_discard : Finds (l.Lacks i) (l.discard i) := (finds_argWord32 0).map _

/-! ## Handles -/

theorem finds_boundReference {Q : Id → Prop} (v : Variable) (id : Id)
    (properties : Option HandleProperties) (p : Program) :
    Finds Q (boundReference v id properties p) := by
  unfold boundReference
  split
  · exact .error rfl
  · split
    · exact .error rfl
    · split
      · exact .ok _
      · exact .ok _

theorem finds_handle (p : Program) {id : Id} (hid : .ref id ∈ i.args) :
    Finds (l.Lacks i) (l.handle p id) := by
  unfold handle
  split
  · next hnone =>
      rintro _ ⟨⟩
      exact ⟨hid, hnone⟩
  · dsimp only
    split
    · exact .ok _
    · exact .bind (finds_boundReference _ _ _ _) fun _ => .ok _

theorem finds_createHandle (s : Setting) : Finds (l.Lacks i) (l.createHandle s i op) := by
  have hdeclared : ∀ cls, Finds (l.Lacks i) (l.declared s.program i op cls) := by
    intro cls
    refine .ite (fun _ => .bind (finds_argWord32 1) fun _ => .bind (finds_argWord32 2) fun _ => .ok _) ?_
    exact fun _ => .bind (finds_argWord32 1) fun _ => .bind (finds_argWord32 2) fun _ =>
      .bind (finds_argWord32 3) fun _ => .ok _
  unfold createHandle
  refine .bind Instr.finds_resultId fun id => .bind (finds_argNat 0) fun number => ?_
  split
  · exact .error rfl
  · refine .bind (hdeclared _) fun r => ?_
    split
    · exact .error rfl
    · split
      · exact .ok _
      · exact .ok _

/-! ## Resources -/

theorem finds_address (start : Nat) (isTexture : Bool) :
    Finds (l.Lacks i) (l.address i start isTexture) := by
  unfold address
  refine .bind (finds_argWord32OrZero _) fun first => .bind (finds_argWord32OrZero _) fun second => ?_
  exact .ite (fun _ => .bind (finds_argWord32OrZero _) fun third => .ok _) fun _ => .ok _

theorem finds_storedValues (start : Nat) : Finds (l.Lacks i) (l.storedValues i start) := by
  have hvalue : ∀ c, Finds (l.Lacks i)
      (if i.hasArg (start + c) then (l.arg i (start + c)).map some else .ok none) := fun c =>
    .ite (fun _ => (finds_arg _).map _) fun _ => .ok _
  unfold storedValues
  exact .bind (hvalue 0) fun _ => .bind (hvalue 1) fun _ => .bind (hvalue 2) fun _ =>
    .bind (hvalue 3) fun _ => .ok _

theorem finds_optionalSingle (index : Option Nat) : Finds (l.Lacks i) (l.optionalSingle i index) := by
  cases index with
  | none => exact .ok _
  | some index => exact finds_argSingleOrZero index

theorem finds_singlesInto (start : Nat) (v : Variable) (c count : Nat) :
    Finds (l.Lacks i) (l.singlesInto i start v c count) := by
  induction count generalizing v c with
  | zero => exact .ok _
  | succ n ih =>
      rw [singlesInto]
      exact .ite (fun _ => .bind (finds_argSingle _) fun _ => ih _ _) fun _ => ih _ _

theorem finds_texelOffset (index : Nat) : Finds (l.Lacks i) (l.texelOffset i index) :=
  .ite (fun _ => (finds_arg index).map _) fun _ => .ok _

theorem finds_givenGradients (start : Nat) (ddx ddy : Variable) (c : Nat) (coords : List Operand) :
    Finds (l.Lacks i) (l.givenGradients i start ddx ddy c coords) := by
  induction coords generalizing ddx ddy c with
  | nil => exact .ok _
  | cons o rest ih =>
      rw [givenGradients]
      refine .ite (fun _ => ih _ _ _) fun _ => ?_
      exact .bind (finds_argSingleOrZero _) fun dx => .bind (finds_argSingleOrZero _) fun dy => ih _ _ _

/-- The request of an operation with a sampler finds an operand unassigned in its lane, or, where it takes
    derivatives of its coordinates itself, in a lane of the quad. -/
theorem finds_sampleRequest (lanes : List Lane) (sampler : ResourceRef) (at_ : SampleOperands)
    (r : SampleRequest) :
    Finds (fun id => l.Lacks i id ∨ (at_.gradients = .implicit ∧ l.LacksAround i lanes id))
      (l.sampleRequest lanes i sampler at_ r) := by
  have hown : ∀ {γ : Type} {x : Except Fault γ}, Finds (l.Lacks i) x →
      Finds (fun id => l.Lacks i id ∨ (at_.gradients = .implicit ∧ l.LacksAround i lanes id)) x :=
    fun h => h.imp fun _ => .inl
  have hgradients : ∀ ddx ddy,
      Finds (fun id => l.Lacks i id ∨ (at_.gradients = .implicit ∧ l.LacksAround i lanes id))
        (l.gradients lanes i at_.gradients ((i.args.drop 2).take at_.coords) ddx ddy) := by
    intro ddx ddy
    unfold gradients
    split
    · exact .ok _
    · next himplicit =>
        refine .ite (fun hquad => ?_) fun _ => .ok _
        exact (finds_coordinateDerivatives hquad ddx ddy 0 fun o ho =>
          List.mem_of_mem_drop (List.mem_of_mem_take ho)).imp fun id h => .inr ⟨himplicit, h⟩
    · exact hown (finds_givenGradients _ _ _ _ _)
  have hchannel : Finds (l.Lacks i) (l.gatherChannel i at_.channel) := by
    cases at_.channel with
    | none => exact .ok _
    | some index => exact (finds_argNat index).map _
  unfold sampleRequest
  refine .bind (hown (finds_singlesInto _ _ _ _)) fun uv => ?_
  refine .bind (hown (.bind (.mapM (fun c => finds_texelOffset _) _) fun given => .ok _)) fun offsets => ?_
  refine .bind (hown hchannel) fun channel => .bind (hown (finds_optionalSingle _)) fun compareTo => ?_
  refine .bind (hown (finds_optionalSingle _)) fun bias => ?_
  refine .bind (hown (finds_optionalSingle _)) fun lod => ?_
  exact .bind (hgradients _ _) fun ⟨ddx, ddy⟩ => .ok _

theorem finds_loadCoords (r : SampleRequest) (c count : Nat) :
    Finds (l.Lacks i) (l.loadCoords i r c count) := by
  induction count generalizing r c with
  | zero => exact .ok _
  | succ n ih =>
      rw [loadCoords]
      refine .ite (fun _ => .bind ((finds_argWord32 _).map _) fun uv => ?_) fun _ => .bind (.ok _) fun uv => ?_
      all_goals exact .bind (finds_texelOffset _) fun offset => ih _ _

theorem finds_loadRequest (r : SampleRequest) : Finds (l.Lacks i) (l.loadRequest i r) := by
  have hlevel : ∀ kind r, Finds (l.Lacks i) (l.loadLevel i kind r) := by
    intro kind r
    unfold loadLevel
    refine .ite (fun _ => .ok _) fun _ => .bind (finds_argWord32 1) fun level => ?_
    split <;> exact .ok _
  unfold loadRequest
  exact .bind (hlevel _ _) fun r => finds_loadCoords _ _ _

theorem finds_chooseLod (answer result : Variable) :
    Finds (l.Lacks i) (l.chooseLod i op answer result) := by
  unfold chooseLod
  exact .ite (fun _ => .bind (finds_argWord32 5) fun _ => .ite (fun _ => .ok _) fun _ => .ok _)
    fun _ => .ok _

/-! ## Memory -/

theorem finds_resolve {Q : Id → Prop} (shared : Memory) (id : Id) : Finds Q (l.resolve shared id) := by
  unfold resolve
  split
  · exact .ok _
  · exact .error rfl

end Lane

namespace Memory

variable {Q : Id → Prop} (m : Memory) (q : Pointer)

theorem finds_read : Finds Q (m.read q) := by
  unfold read
  split
  · exact .error rfl
  · split
    · exact .error rfl
    · exact .ok _

theorem finds_write (bytes : Bytes) : Finds Q (m.write q bytes) := by
  unfold write
  refine .ite (fun _ => .error rfl) fun _ => ?_
  split
  · exact .error rfl
  · split
    · exact .error rfl
    · exact .ok _

theorem finds_reload (base : Id) (v : Variable) : Finds Q (m.reload base v) := by
  unfold reload
  split
  · exact .error rfl
  · exact .ok _

theorem finds_allocateFor (ty : Ty) (id : Id) (isGlobal : Bool) (name : String) :
    Finds Q (m.allocateFor ty id isGlobal name) := by
  unfold allocateFor
  split
  · exact .error rfl
  · exact .ok _

end Memory

namespace Lane

variable {Q : Id → Prop} {i : Instr} {l : Lane}

theorem finds_checkedOffset (offset : Int) : Finds Q (checkedOffset offset) :=
  .ite (fun _ => .ok _) fun _ => .error rfl

theorem finds_advance (offset index : Int) (size : Nat) : Finds Q (advance offset index size) :=
  .bind (finds_checkedOffset _) fun _ => finds_checkedOffset _

theorem finds_selectElement (offset : Int) (ty : Ty) (index : Int) (constIndex : Bool) :
    Finds Q (selectElement offset ty index constIndex) := by
  unfold selectElement
  split
  · refine .ite (fun _ => .error rfl) fun _ => ?_
    split
    · exact .error rfl
    · exact (finds_checkedOffset _).map _
  · exact (finds_advance _ _ _).map _
  · exact (finds_advance _ _ _).map _
  · exact .error rfl

theorem finds_selectPath (offset : Int) (ty : Ty) (index count : Nat) :
    Finds (l.Lacks i) (l.selectPath i offset ty index count) := by
  induction count generalizing offset ty index with
  | zero => exact .ok _
  | succ n ih =>
      rw [selectPath]
      exact .bind (finds_arg index) fun pick => .bind (finds_selectElement _ _ _ _) fun ⟨_, _⟩ => ih _ _ _

theorem finds_placeAt (base : Id) (allocated : Nat) (offset : Int) (ty : Ty) :
    Finds Q (placeAt base allocated offset ty) :=
  .ite (fun _ => .ok _) fun _ => .error rfl

theorem finds_derive (shared : Memory) : Finds (l.Lacks i) (l.derive shared i) := by
  unfold derive
  refine .bind (Instr.finds_argId 0) fun src => .bind (finds_resolve _ _) fun base => ?_
  refine .guard rfl fun _ => .bind (finds_arg 1) fun first => .bind (finds_advance _ _ _) fun start => ?_
  refine .bind (finds_selectPath _ _ _ _) fun ⟨offset, ty⟩ => ?_
  dsimp only
  split
  · refine .ite (fun _ => .error rfl) fun _ => ?_
    split
    · exact .error rfl
    · exact finds_placeAt _ _ _ _
  · split
    · exact .error rfl
    · exact finds_placeAt _ _ _ _

end Lane

end Lockstep
