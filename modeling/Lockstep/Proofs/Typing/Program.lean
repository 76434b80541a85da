import Lockstep.Proofs.Ids
import Lockstep.Proofs.Typing.Value

set_option autoImplicit false

/-! # Well-typed programs

The types of operands and of instructions, by the rules of the intermediate language. Global variables and
results have the types that they are declared with; a constant and an undefined operand say theirs.
Constants are values of their types (`Constant.HasType.toVariable`). -/

namespace Lockstep

/-! ## Types -/

/-- The widths of integers and of floats. -/
def ScalarKind.widths : ScalarKind → List Nat
  | .int => [1, 8, 16, 32, 64]
  | .float => [16, 32, 64]

/-- A number of some kind and width, or a vector of such numbers, whose length is given. -/
inductive Ty.Numbers (kind : ScalarKind) (bits : Nat) : Option Nat → Ty → Prop
  | one (hbits : bits ∈ kind.widths) : Numbers kind bits none (.scalar kind bits)
  | vector {n : Nat} (hbits : bits ∈ kind.widths) :
      Numbers kind bits (some n) (.vector (.scalar kind bits) n)

/-- A path of indices from a type to one of its parts. An index into a structure is a constant that
    stands for the number of a member. -/
inductive Ty.Path (stands : Constant → Nat → Prop) : Ty → List Operand → Ty → Prop
  | here (ty : Ty) : Path stands ty [] ty
  | member {name : String} {members : List Ty} {c : Constant} {k : Nat} {ty part : Ty}
      {rest : List Operand} (hc : stands c k) (hty : members[k]? = some ty)
      (h : Path stands ty rest part) : Path stands (.struct name members) (.const c :: rest) part
  | element {elem : Ty} {n : Nat} {o : Operand} {part : Ty} {rest : List Operand}
      (h : Path stands elem rest part) : Path stands (.array elem n) (o :: rest) part
  | component {kind : ScalarKind} {bits n : Nat} {o : Operand} :
      Path stands (.vector (.scalar kind bits) n) [o] (.scalar kind bits)

/-! ## Operands -/

/-- The type of an identifier. -/
inductive Program.HasTy (p : Program) : Id → Ty → Prop
  | result {i : Instr} {id : Id} (hi : p.HasInstr i) (hid : i.result = some id) : HasTy p id i.ty
  | global {g : GlobalDecl} (hg : g ∈ p.globals) : HasTy p g.id g.ty

/-- The type of a constant. -/
inductive Constant.HasType : Constant → Ty → Prop
  | int (bits : Nat) (value : UInt64) : HasType (.int bits value) (.int bits)
  | float (bits : Nat) (value : UInt64) : HasType (.float bits value) (.float bits)
  | vector {kind : ScalarKind} {bits : Nat} {elems : List Constant} (hne : elems ≠ [])
      (h : ∀ c ∈ elems, HasType c (.scalar kind bits)) :
      HasType (.vector elems) (.vector (.scalar kind bits) elems.length)
  | array {elem : Ty} {n : Nat} {elems : List Constant} (hn : elems.length = n)
      (h : ∀ c ∈ elems, HasType c elem) : HasType (.aggregate (.array elem n) elems) (.array elem n)
  | struct {name : String} {members : List Ty} {elems : List Constant}
      (hn : elems.length = members.length)
      (h : ∀ (k : Nat) (c : Constant) (ty : Ty), elems[k]? = some c → members[k]? = some ty → HasType c ty) :
      HasType (.aggregate (.struct name members) elems) (.struct name members)
  | zero (ty : Ty) : HasType (.zero ty) ty

/-- The type of an operand. -/
inductive Operand.HasType (p : Program) : Operand → Ty → Prop
  | ref {id : Id} {ty : Ty} (h : p.HasTy id ty) : HasType p (.ref id) ty
  | const {c : Constant} {ty : Ty} (h : c.HasType ty) : HasType p (.const c) ty
  | undef (ty : Ty) : HasType p (.undef ty) ty

namespace Constant

theorem toVariables_eq_map (cs : List Constant) : toVariables cs = cs.map toVariable := by
  induction cs with
  | nil => rfl
  | cons c cs ih => rw [toVariables, ih, List.map_cons]

namespace HasType

variable {c : Constant} {ty : Ty}

theorem ty_eq (h : c.HasType ty) : c.ty = ty := by
  induction h with
  | int => rfl
  | float => rfl
  | @vector kind bits elems hne _ ih =>
      cases elems with
      | nil => exact absurd rfl hne
      | cons c cs =>
          rw [Constant.ty, ih c List.mem_cons_self]
          rfl
  | array => rfl
  | struct => rfl
  | zero => rfl

/-- A constant is a value of its type. -/
theorem toVariable (h : c.HasType ty) : c.toVariable.HasType ty := by
  induction h with
  | int bits value =>
      rw [Constant.toVariable]
      exact Variable.hasType_scalar .int bits value
  | float bits value =>
      rw [Constant.toVariable]
      exact Variable.hasType_scalar .float bits _
  | @vector kind bits elems hne h ih =>
      cases elems with
      | nil => exact absurd rfl hne
      | cons c cs =>
          rw [Constant.toVariable, (h c List.mem_cons_self).ty_eq, toVariables_eq_map, List.map_map]
          have hbounded : ∀ word ∈ (c :: cs).map ((·.get 0) ∘ Constant.toVariable),
              word.toNat < 2 ^ (8 * (Ty.scalar kind bits).elem.byteSize) := by
            intro word hword
            obtain ⟨c', hc', rfl⟩ := List.mem_map.1 hword
            obtain ⟨helem, hcount, hempty⟩ := (ih c' hc').scalar
            have hlt := (ih c' hc').bounded.get_lt hempty (c := 0) (by rw [hcount]; exact Nat.one_pos)
            rwa [helem] at hlt
          have hwords := Variable.hasType_ofWords hbounded
          rwa [List.length_map] at hwords
  | @array elem n elems hn _ ih =>
      rw [Constant.toVariable]
      refine Variable.hasType_replaceMembers fun k m v hm hv => ?_
      rw [toVariables_eq_map, List.getElem?_map, Option.map_eq_some_iff] at hv
      obtain ⟨c, hc, rfl⟩ := hv
      have hvalue := ih c (List.mem_of_getElem? hc)
      have hmember := (Variable.hasType_zeroed "" (.array elem n)).elements (List.mem_of_getElem? hm)
      exact ⟨hvalue.shape.trans hmember.shape.symm, hvalue.bounded⟩
  | @struct name members elems hn _ ih =>
      rw [Constant.toVariable]
      refine Variable.hasType_replaceMembers fun k m v hm hv => ?_
      rw [toVariables_eq_map, List.getElem?_map, Option.map_eq_some_iff] at hv
      obtain ⟨c, hc, rfl⟩ := hv
      have hk : k < members.length := hn ▸ (List.getElem?_eq_some_iff.1 hc).1
      have hvalue := ih k c members[k] hc (List.getElem?_eq_getElem hk)
      have hmember := (Variable.hasType_zeroed "" (.struct name members)).field
        (List.getElem?_eq_getElem hk) hm
      exact ⟨hvalue.shape.trans hmember.shape.symm, hvalue.bounded⟩
  | zero ty =>
      rw [Constant.toVariable]
      exact Variable.hasType_zeroed "" ty

end HasType

end Constant

/-! ## Instructions -/

namespace Opcode

/-- Whether the instruction compares numbers of a kind. -/
def compares (op : Opcode) : ScalarKind → Bool
  | .int => (op.intHolds? 1 0 0).isSome
  | .float => (op.floatHolds? none).isSome

/-- The instruction casts numbers of one kind and width to numbers of another. -/
inductive Casts : Opcode → (kind : ScalarKind) → (bits : Nat) → (kind' : ScalarKind) → (bits' : Nat) → Prop
  | trunc {m n : Nat} (h : n < m) : Casts .trunc .int m .int n
  | zExt {m n : Nat} (h : m < n) : Casts .zExt .int m .int n
  | sExt {m n : Nat} (h : m < n) : Casts .sExt .int m .int n
  | fToU {m n : Nat} : Casts .fToU .float m .int n
  | fToS {m n : Nat} : Casts .fToS .float m .int n
  | uToF {m n : Nat} : Casts .uToF .int m .float n
  | sToF {m n : Nat} : Casts .sToF .int m .float n
  | fpTrunc {m n : Nat} (h : n < m) : Casts .fpTrunc .float m .float n
  | fpExt {m n : Nat} (h : m < n) : Casts .fpExt .float m .float n

end Opcode

namespace Instr

/-- An operand of an instruction has a type. -/
def Takes (i : Instr) (p : Program) (index : Nat) (ty : Ty) : Prop :=
  ∃ o, i.args[index]? = some o ∧ o.HasType p ty

/-- An operand of an instruction is an integer. -/
def TakesInt (i : Instr) (p : Program) (index : Nat) : Prop :=
  ∃ bits ∈ ScalarKind.int.widths, i.Takes p index (.int bits)

/-- The instructions of the core language and their types. -/
inductive WellTyped (p : Program) (i : Instr) : Prop
  | arithmetic {op : IntOp} {bits : Nat} {count : Option Nat} (hop : i.op.intOp? = some op)
      (hty : i.ty.Numbers .int bits count) (ha : i.Takes p 0 i.ty) (hb : i.Takes p 1 i.ty)
  | floatArithmetic {op : FloatOp} {bits : Nat} {count : Option Nat} (hop : i.op.floatOp? = some op)
      (hty : i.ty.Numbers .float bits count) (ha : i.Takes p 0 i.ty) (hb : i.Takes p 1 i.ty)
  | comparison {kind : ScalarKind} {bits : Nat} {count : Option Nat} {ty : Ty}
      (hop : i.op.compares kind) (hty : i.ty.Numbers .int 1 count) (hoperand : ty.Numbers kind bits count)
      (ha : i.Takes p 0 ty) (hb : i.Takes p 1 ty)
  | cast {kind kind' : ScalarKind} {bits bits' : Nat} {count : Option Nat} {ty : Ty}
      (hop : i.op.Casts kind bits kind' bits') (hty : i.ty.Numbers kind' bits' count)
      (hoperand : ty.Numbers kind bits count) (ha : i.Takes p 0 ty)
  | bitcast {ty : Ty} (hop : i.op = .bitcast) (ha : i.Takes p 0 ty)
      (hsize : ty.layoutSize = i.ty.layoutSize ∨ (ty.isPointer ∧ i.ty.isPointer))
  | phi (hop : i.op = .phi)
      (h : ∀ (k : Nat) (o : Operand), i.args[2 * k]? = some o → o.HasType p i.ty)
  | select (hop : i.op = .select) (hcond : i.Takes p 2 .bool) (ha : i.Takes p 0 i.ty)
      (hb : i.Takes p 1 i.ty)
  | selectEach {kind : ScalarKind} {bits n : Nat} (hop : i.op = .select)
      (hty : i.ty.Numbers kind bits (some n)) (hcond : i.Takes p 2 (.vector .bool n))
      (ha : i.Takes p 0 i.ty) (hb : i.Takes p 1 i.ty)
  | extractElement {kind : ScalarKind} {bits n : Nat} (hop : i.op = .extractElement)
      (hty : i.ty = .scalar kind bits) (ha : i.Takes p 0 (.vector i.ty n)) (hindex : i.TakesInt p 1)
  | insertElement {kind : ScalarKind} {bits n : Nat} (hop : i.op = .insertElement)
      (hty : i.ty = .vector (.scalar kind bits) n) (ha : i.Takes p 0 i.ty)
      (hb : i.Takes p 1 (.scalar kind bits)) (hindex : i.TakesInt p 2)
  | shuffleVector {kind : ScalarKind} {bits m n : Nat} (hop : i.op = .shuffleVector)
      (hty : i.ty = .vector (.scalar kind bits) n) (ha : i.Takes p 0 (.vector (.scalar kind bits) m))
      (hb : i.Takes p 1 (.vector (.scalar kind bits) m)) (hpicks : i.Takes p 2 (.vector (.int 32) n))
  | extractVal {ty : Ty} (hop : i.op = .extractVal) (ha : i.Takes p 0 ty)
      (hpath : ty.Path (fun c k => (c.toVariable.word32 0).toNat = k) (i.args.drop 1) i.ty)
  | alloca {ty : Ty} {space : AddressSpace} (hop : i.op = .alloca) (hty : i.ty = .pointer ty space)
  | load {space : AddressSpace} (hop : i.op = .load ∨ i.op = .loadAtomic)
      (ha : i.Takes p 0 (.pointer i.ty space))
  | store {ty : Ty} {space : AddressSpace} (hop : i.op = .store ∨ i.op = .storeAtomic)
      (hresult : i.result = none) (ha : i.Takes p 0 (.pointer ty space)) (hb : i.Takes p 1 ty)
  | elementPointer {ty part : Ty} {space : AddressSpace} (hop : i.op = .getElementPtr)
      (hty : i.ty = .pointer part space) (ha : i.Takes p 0 (.pointer ty space)) (hindex : i.TakesInt p 1)
      (hpath : ty.Path (fun c k => (c.toVariable.intComp 0).toInt = k) (i.args.drop 2) part)
  | atomic {ty : Ty} {space : AddressSpace} (hop : i.op.isAtomicUpdate)
      (hty : ∀ id, i.result = some id → i.ty = ty) (ha : i.Takes p 0 (.pointer ty space))
      (hb : i.Takes p 1 ty)
  | compareExchange {ty : Ty} {space : AddressSpace} {name : String} (hop : i.op = .compareExchange)
      (hty : i.ty = .struct name [ty, .bool]) (ha : i.Takes p 0 (.pointer ty space))
      (hb : i.Takes p 1 ty) (hc : i.Takes p 2 ty)
  | control (hop : i.isTerminator ∨ i.isNop ∨ i.op = .fence) (hresult : i.result = none)

end Instr

/-- Every instruction of the program is one of the core language, and well-typed. -/
def Program.WellTyped (p : Program) : Prop := ∀ i, p.HasInstr i → i.WellTyped p

end Lockstep
