import Lockstep.Proofs.Exec.Results
import Lockstep.Proofs.Typing.Program

set_option autoImplicit false

/-! # Values of instructions that only compute

In a lane whose values have the types of their identifiers, operands have their types, and each
instruction that reaches no memory gives a value of its own type (`Effect.HasType`), one lemma for each
family of instructions. -/

namespace Lockstep

/-- An effect that assigns nothing but a value of a type. -/
inductive Effect.HasType (ty : Ty) : Effect → Prop
  | proceed : HasType ty .proceed
  | kill : HasType ty .kill
  | assign {id : Id} {v : Variable} {report : Bool} (h : v.HasType ty) : HasType ty (.assign id v report)

/-- The values of a lane, and those that its phi nodes read, have the types of their identifiers. -/
structure Lane.HasTypes (p : Program) (l : Lane) : Prop where
  value : ∀ {id ty v}, p.HasTy id ty → l.value? id = some v → v.HasType ty
  phi : ∀ {id ty v}, p.HasTy id ty → l.phiValues.get? id = some v → v.HasType ty

/-! ## Numbers -/

theorem ElemType.byteSize_pos (t : ElemType) : 0 < t.byteSize := by
  cases t <;> decide

namespace ScalarKind

variable {kind : ScalarKind} {bits : Nat}

theorem bits_elem (h : bits ∈ kind.widths) : (Ty.scalar kind bits).elem.bits = bits := by
  cases kind <;> simp only [widths, List.mem_cons, List.not_mem_nil, or_false] at h
  · rcases h with rfl | rfl | rfl | rfl | rfl <;> rfl
  · rcases h with rfl | rfl | rfl <;> rfl

theorem isFloat_elem (h : bits ∈ float.widths) : (Ty.scalar .float bits).elem.isFloat := by
  simp only [widths, List.mem_cons, List.not_mem_nil, or_false] at h
  rcases h with rfl | rfl | rfl <;> rfl

theorem two_pow_le (h : bits ∈ kind.widths) : 2 ^ bits ≤ 2 ^ (8 * (Ty.scalar kind bits).elem.byteSize) := by
  have hle := (Ty.scalar kind bits).elem.two_pow_bits_le
  rwa [bits_elem h] at hle

end ScalarKind

namespace Ty.Numbers

variable {kind : ScalarKind} {bits : Nat} {count : Option Nat} {ty : Ty}

theorem bits_mem (h : ty.Numbers kind bits count) : bits ∈ kind.widths := by
  cases h <;> assumption

theorem scalarBits_eq (h : ty.Numbers kind bits count) : ty.scalarBits = bits := by
  cases h <;> rfl

end Ty.Numbers

namespace Variable

variable {kind : ScalarKind} {bits n : Nat} {count : Option Nat} {v : Variable} {ty elem : Ty}

/-- A value of numbers has their element type, and as many components as there are. -/
theorem HasType.numbers (hv : v.HasType ty) (h : ty.Numbers kind bits count) :
    v.elem = (Ty.scalar kind bits).elem ∧ v.compCount = count.elim 1 (·.toUInt8.toNat) ∧
      v.members.isEmpty := by
  cases h with
  | one _ => exact hv.scalar
  | vector _ => exact hv.vector

theorem HasType.get_lt (hv : v.HasType ty) (h : ty.Numbers kind bits count) {c : Nat}
    (hc : c < count.elim 1 (·.toUInt8.toNat)) :
    (v.get c).toNat < 2 ^ (8 * (Ty.scalar kind bits).elem.byteSize) := by
  obtain ⟨helem, hcount, hempty⟩ := hv.numbers h
  rw [← helem]
  exact hv.bounded.get_lt hempty (hcount ▸ hc)

/-- A structure has no components of its own. -/
theorem HasType.compCount_struct {name : String} {members : List Ty} (hv : v.HasType (.struct name members)) :
    v.compCount = 0 := by
  have hshape := hv.shape
  rw [zeroed, shape_eq, shape_eq] at hshape
  obtain ⟨-, hrows, -, -⟩ := Shape.node.inj hshape
  rw [compCount, hrows]
  exact Nat.zero_mul _

/-- Nor has an array without elements. -/
theorem HasType.compCount_array (hv : v.HasType (.array elem n)) (hempty : v.members.isEmpty) :
    v.compCount = 0 := by
  have hshape := hv.shape
  rw [zeroed, shape_eq, shape_eq] at hshape
  obtain ⟨-, hrows, -, hmembers⟩ := Shape.node.inj hshape
  have hn := (isEmpty_of_shapes hmembers).symm.trans hempty
  rw [List.isEmpty_iff, List.map_eq_nil_iff, List.range_eq_nil] at hn
  rw [compCount, hrows, hn]
  exact Nat.zero_mul _

end Variable

/-! ## Operands -/

theorem Instr.yields_blank_hasType {i : Instr} : Yields (fun r => r.2.HasType i.ty) i.blank := by
  intro r h
  obtain ⟨id, -, rfl⟩ := ok_of_map h
  exact Variable.hasType_zeroed _ _

namespace Lane

variable {p : Program} {l : Lane} {i : Instr} {ty part : Ty} {kind : ScalarKind} {bits : Nat}
  {count : Option Nat}

theorem HasTypes.operand (h : l.HasTypes p) {o : Operand} (ho : o.HasType p ty) (flush : Bool) :
    Yields (·.HasType ty) (l.operand o flush) := by
  have hflush : ∀ {v : Variable}, v.HasType ty → (if flush then v.flushed else v).HasType ty := by
    intro v hv
    split
    · exact hv.flushed
    · exact hv
  intro v hv
  unfold Lane.operand at hv
  obtain ⟨x, hx, rfl⟩ := ok_of_map hv
  refine hflush ?_
  cases ho with
  | ref hid =>
      dsimp only at hx
      split at hx
      · next w hw =>
          cases hx
          exact h.value hid hw
      · cases hx
  | const hc =>
      cases hx
      exact hc.toVariable
  | undef =>
      cases hx
      exact Variable.hasType_zeroed _ _

theorem HasTypes.arg (h : l.HasTypes p) {index : Nat} (ho : i.Takes p index ty) :
    Yields (·.HasType ty) (l.arg i index) := by
  obtain ⟨o, hindex, ho⟩ := ho
  unfold Lane.arg
  rw [hindex]
  exact h.operand ho _

theorem arg_const {index : Nat} {c : Constant} (hflush : ¬ i.isFlushing)
    (h : i.args[index]? = some (.const c)) : l.arg i index = .ok c.toVariable := by
  unfold Lane.arg
  rw [h]
  exact congrArg Except.ok (if_neg hflush)

/-! ## Arithmetic, comparisons and casts -/

theorem hasType_arithmetic {op : IntOp} (hop : i.op.intOp? = some op) (hty : i.ty.Numbers .int bits count) :
    Yields (Effect.HasType i.ty) (l.arithmetic i) := by
  unfold arithmetic
  refine .bind Instr.yields_blank_hasType fun ⟨id, result⟩ hresult => .after fun a => .after fun b => ?_
  rw [hop]
  refine .guard (.ok (.assign (hresult.fill fun c _ _ => ?_)))
  rw [hty.scalarBits_eq, (hresult.numbers hty).1]
  exact Nat.lt_of_lt_of_le (op.apply_lt ..) (ScalarKind.two_pow_le hty.bits_mem)

theorem hasType_floatArithmetic {op : FloatOp} (hop : i.op.floatOp? = some op) :
    Yields (Effect.HasType i.ty) (l.arithmetic i) := by
  have hint : i.op.intOp? = none := by
    cases heq : i.op <;> rw [heq] at hop <;> first | rfl | cases hop
  unfold arithmetic
  refine .bind Instr.yields_blank_hasType fun ⟨id, result⟩ hresult => .after fun a => .after fun b => ?_
  rw [hint, hop]
  exact .bind (fun _ hv => hresult.fillOr (fun _ _ hc => ElemType.floatOp_lt hc) hv) fun v hv => .ok (.assign hv)

theorem hasType_compare : Yields (Effect.HasType i.ty) (l.compare i) := by
  unfold compare
  refine .bind Instr.yields_blank_hasType fun ⟨id, result⟩ hresult => .after fun a => .after fun b => ?_
  refine .bind (fun _ hv => hresult.fillOr (fun c bits hc => ?_) hv) fun v hv => .ok (.assign hv)
  obtain ⟨hit, -, rfl⟩ := Option.map_eq_some_iff.1 hc
  have hpos : 1 < 2 ^ (8 * result.elem.byteSize) :=
    Nat.one_lt_two_pow (Nat.mul_ne_zero (by decide) (Nat.ne_of_gt result.elem.byteSize_pos))
  split
  · exact hpos
  · exact Nat.lt_of_succ_lt hpos

theorem hasType_bitcast (hop : i.op = .bitcast) : Yields (Effect.HasType i.ty) (l.cast i) := by
  unfold cast
  refine .bind Instr.yields_blank_hasType fun ⟨id, result⟩ hresult => .after fun a => ?_
  exact .ite (fun _ => .guard (.ok (.assign (hresult.ofBytes _)))) fun hne => absurd hop hne

theorem HasTypes.cast {kind' : ScalarKind} {bits' : Nat} (h : l.HasTypes p)
    (hop : i.op.Casts kind bits kind' bits') (hty : i.ty.Numbers kind' bits' count)
    (hoperand : ty.Numbers kind bits count) (ha : i.Takes p 0 ty) :
    Yields (Effect.HasType i.ty) (l.cast i) := by
  unfold Lane.cast
  refine .bind Instr.yields_blank_hasType fun ⟨id, result⟩ hresult => .bind (h.arg ha) fun a ha => ?_
  refine .ite (fun _ => .guard (.ok (.assign (hresult.ofBytes _)))) fun _ => ?_
  refine .bind (fun _ hv => hresult.fillOr (fun c w hc => ?_) hv) fun v hv => .ok (.assign hv)
  have hsrc := (ha.numbers hoperand).1
  have hdst := (hresult.numbers hty).1
  refine castComp_lt (fun hext => ?_) (fun hfloat => ?_) hc
  · rw [hext] at hop
    cases hop with
    | zExt hlt =>
        rw [hsrc, hdst, ScalarKind.bits_elem hoperand.bits_mem]
        have hle := (Nat.pow_le_pow_iff_right (by decide)).1 (ScalarKind.two_pow_le hty.bits_mem)
        exact Nat.le_trans (Nat.le_of_lt hlt) hle
  · rw [hdst]
    obtain rfl : kind' = .float := by
      generalize i.op = op at hop hfloat
      cases hop <;> first | rfl | simp at hfloat
    exact ScalarKind.isFloat_elem hty.bits_mem

/-! ## Phi nodes and choices -/

/-- The operand that a phi node picks is one of its values. -/
theorem mem_of_phiOperand {pred : Nat} {args : List Operand} {o : Operand}
    (h : phiOperand pred args = .ok (some o)) : ∃ k, args[2 * k]? = some o := by
  induction args using phiOperand.induct pred with
  | case1 => cases h
  | case2 value rest =>
      rw [phiOperand, if_pos rfl] at h
      cases h
      exact ⟨0, rfl⟩
  | case3 value b rest hne ih =>
      rw [phiOperand, if_neg hne] at h
      obtain ⟨k, hk⟩ := ih h
      exact ⟨k + 1, hk⟩
  | case4 args hne hne' =>
      rw [phiOperand] at h
      · cases h
      · exact hne
      · exact hne'

theorem HasTypes.phiNode (h : l.HasTypes p)
    (hargs : ∀ (k : Nat) (o : Operand), i.args[2 * k]? = some o → o.HasType p i.ty) :
    Yields (Effect.HasType i.ty) (l.phi i) := by
  unfold Lane.phi
  refine .after fun id => .bind (P := fun o => ∀ o', o = some o' → o'.HasType p i.ty) ?_ fun o ho => ?_
  · rintro o ho o' rfl
    obtain ⟨k, hk⟩ := mem_of_phiOperand ho
    exact hargs k o' hk
  · split
    · exact .error _
    · next src =>
        split
        · exact .error _
        · next v hv =>
            cases ho _ rfl with
            | ref hid => exact .ok (.assign ((h.phi hid hv).withName _))
    · next o' _ => exact .bind (h.operand (ho o' rfl) _) fun v hv => .ok (.assign (hv.withName _))

/-- A value that takes components of another has its type, if the condition has no more components. -/
theorem hasType_mergeBy {cond ifTrue ifFalse : Variable} (hty : ty.Numbers kind bits count)
    (hcond : cond.compCount = count.elim 1 (·.toUInt8.toNat)) (htrue : ifTrue.HasType ty)
    (hfalse : ifFalse.HasType ty) : (mergeBy cond ifTrue ifFalse).HasType ty := by
  unfold mergeBy
  refine hfalse.withValue fun _ c hc => ?_
  have hlt := hfalse.get_lt hty (c := c) ((hfalse.numbers hty).2.1 ▸ hc)
  rw [(hfalse.numbers hty).1, Value.get_fill]
  split
  · next hc' =>
      split
      · exact htrue.get_lt hty (hcond ▸ hc'.1)
      · exact hlt
  · exact hlt

/-- A choice between values of a type, if a condition with several components is for numbers. -/
theorem HasTypes.select {cond : Ty} (h : l.HasTypes p) (hcond : i.Takes p 2 cond)
    (ha : i.Takes p 0 i.ty) (hb : i.Takes p 1 i.ty)
    (hmerge : ∀ {v ifTrue ifFalse : Variable}, v.HasType cond → v.compCount > 1 → ifTrue.HasType i.ty →
      ifFalse.HasType i.ty → (mergeBy v ifTrue ifFalse).HasType i.ty) :
    Yields (Effect.HasType i.ty) (l.select i) := by
  unfold Lane.select
  refine .after fun id => .bind (h.arg hcond) fun c hc => .bind (h.arg ha) fun ifTrue htrue => ?_
  have hname : ∀ chosen : Variable, chosen.HasType i.ty → Yields (Effect.HasType i.ty)
      (.ok (.value id (chosen.withName (i.resultName id))) : Except Fault Effect) :=
    fun chosen hchosen => .ok (.assign (hchosen.withName _))
  refine .ite (fun hseveral => ?_) fun _ => .ite (fun _ => .bind (.ok htrue) hname) fun _ => .bind (h.arg hb) hname
  refine .bind (P := (·.HasType i.ty)) (fun chosen hchosen => ?_) hname
  obtain ⟨ifFalse, hfalse, rfl⟩ := ok_of_map hchosen
  exact hmerge hc hseveral htrue (h.arg hb _ hfalse)

/-! ## Vectors and aggregates -/

/-- The first of the operands that are left, and those behind it. -/
theorem getElem?_of_drop {o : Operand} {rest : List Operand} {index : Nat}
    (h : i.args.drop index = o :: rest) : i.args[index]? = some o ∧ i.args.drop (index + 1) = rest := by
  refine ⟨?_, ?_⟩
  · rw [← Nat.add_zero index, ← List.getElem?_drop, h]
    rfl
  · rw [← List.drop_drop, h]
    rfl

/-- The value at the end of a path has the type there. -/
theorem hasType_extractFrom (hflush : ¬ i.isFlushing) {id : Id} {result : Variable}
    (hresult : result.HasType part) {args : List Operand}
    (hpath : ty.Path (fun c k => (c.toVariable.word32 0).toNat = k) args part) {current : Variable}
    (hcurrent : current.HasType ty) {index n : Nat} (hargs : i.args.drop index = args) (hn : n = args.length) :
    Yields (Effect.HasType part) (l.extractFrom i id result current index n) := by
  induction hpath generalizing current index n with
  | here ty =>
      subst hn
      exact .ok (.assign (hcurrent.withName _))
  | @member name members c k ty part rest hc hty hrest ih =>
      subst hn
      obtain ⟨hindex, hargs⟩ := getElem?_of_drop hargs
      rw [List.length_cons, Lane.extractFrom]
      refine .bind (P := (· = k)) (fun pick hpick => ?_) fun pick hpick => ?_
      · unfold argNat argWord32 at hpick
        rw [arg_const hflush hindex] at hpick
        cases hpick
        exact hc
      · subst hpick
        refine .ite (fun _ => .ite (fun _ => .error _) fun hno => ?_) fun _ => ?_
        · rw [hcurrent.compCount_struct] at hno
          exact absurd (.inr (Nat.zero_le _)) hno
        · split
          · exact .error _
          · next m hm => exact ih hresult (hcurrent.field hty hm) hargs rfl
  | @element elem n o part rest hrest ih =>
      subst hn
      obtain ⟨-, hargs⟩ := getElem?_of_drop hargs
      rw [List.length_cons, Lane.extractFrom]
      refine .after fun pick => .ite (fun hempty => .ite (fun _ => .error _) fun hno => ?_) fun _ => ?_
      · rw [hcurrent.compCount_array hempty] at hno
        exact absurd (.inr (Nat.zero_le _)) hno
      · split
        · exact .error _
        · next m hm => exact ih hresult (hcurrent.elements (List.mem_of_getElem? hm)) hargs rfl
  | @component kind bits m o =>
      subst hn
      obtain ⟨helem, hcount, hempty⟩ := hcurrent.vector
      rw [List.length_singleton, Lane.extractFrom]
      refine .after fun pick => .ite (fun _ => .ite (fun _ => .error _) fun hin => ?_) fun hne => absurd hempty hne
      refine .ok (.assign (hresult.set ?_))
      rw [hresult.scalar.1]
      have hlt := hcurrent.bounded.get_lt hempty (c := pick) (by omega)
      rwa [helem] at hlt

theorem HasTypes.extractVal (h : l.HasTypes p) (hop : i.op = .extractVal) (ha : i.Takes p 0 ty)
    (hpath : ty.Path (fun c k => (c.toVariable.word32 0).toNat = k) (i.args.drop 1) i.ty) :
    Yields (Effect.HasType i.ty) (l.vector i) := by
  have hflush : ¬ i.isFlushing := by
    unfold Instr.isFlushing
    rw [hop]
    exact Bool.false_ne_true
  unfold Lane.vector
  refine .bind Instr.yields_blank_hasType fun ⟨id, result⟩ hresult => .bind (h.arg ha) fun a ha => ?_
  rw [hop]
  exact .guard (hasType_extractFrom hflush hresult hpath ha rfl List.length_drop.symm)

theorem HasTypes.extractElement {n : Nat} (h : l.HasTypes p) (hop : i.op = .extractElement)
    (hty : i.ty = .scalar kind bits) (ha : i.Takes p 0 (.vector i.ty n)) :
    Yields (Effect.HasType i.ty) (l.vector i) := by
  unfold Lane.vector
  refine .bind Instr.yields_blank_hasType fun ⟨id, result⟩ hresult => .bind (h.arg ha) fun a ha => ?_
  rw [hop]
  refine .after fun pick => .ite (fun _ => .error _) fun hin => .ok (.assign (hresult.set ?_))
  obtain ⟨helem, -, hempty⟩ := ha.vector
  have helem' : result.elem = i.ty.elem := by
    rw [hty] at hresult ⊢
    exact hresult.scalar.1
  have hlt := ha.bounded.get_lt hempty (Nat.lt_of_not_le hin)
  rwa [helem, ← helem'] at hlt

theorem HasTypes.insertElement {n : Nat} (h : l.HasTypes p) (hop : i.op = .insertElement)
    (hty : i.ty = .vector (.scalar kind bits) n) (ha : i.Takes p 0 i.ty)
    (hb : i.Takes p 1 (.scalar kind bits)) : Yields (Effect.HasType i.ty) (l.vector i) := by
  unfold Lane.vector
  refine .bind Instr.yields_blank_hasType fun ⟨id, result⟩ hresult => .bind (h.arg ha) fun a ha => ?_
  rw [hop]
  refine .bind (h.arg hb) fun b hb => .after fun pick => .ite (fun _ => .error _) fun _ => .ok (.assign ?_)
  rw [hty] at hresult ha ⊢
  obtain ⟨helem, hcount, -⟩ := hresult.vector
  obtain ⟨helem', hcount', hempty⟩ := ha.vector
  have hmerged : ({ result with value := a.value } : Variable).HasType (.vector (.scalar kind bits) n) := by
    refine hresult.withValue fun _ c hc => ?_
    have hlt := ha.bounded.get_lt hempty (c := c) (by rw [hcount', ← hcount]; exact hc)
    rwa [helem', ← helem] at hlt
  refine hmerged.set ?_
  obtain ⟨helem₁, hcount₁, hempty₁⟩ := hb.scalar
  have hlt := hb.bounded.get_lt hempty₁ (c := 0) (by rw [hcount₁]; exact Nat.one_pos)
  rw [helem₁] at hlt
  show _ < 2 ^ (8 * result.elem.byteSize)
  rw [helem]
  exact hlt

theorem HasTypes.shuffleVector {m n : Nat} (h : l.HasTypes p) (hop : i.op = .shuffleVector)
    (hty : i.ty = .vector (.scalar kind bits) n) (ha : i.Takes p 0 (.vector (.scalar kind bits) m))
    (hb : i.Takes p 1 (.vector (.scalar kind bits) m)) : Yields (Effect.HasType i.ty) (l.vector i) := by
  unfold Lane.vector
  refine .bind Instr.yields_blank_hasType fun ⟨id, result⟩ hresult => .bind (h.arg ha) fun a ha => ?_
  rw [hop]
  refine .bind (h.arg hb) fun b hb => .after fun picks => ?_
  have hcomp : ∀ {v : Variable}, v.HasType (.vector (.scalar kind bits) m) → ∀ {c : Nat}, c < v.compCount →
      (v.get c).toNat < 2 ^ (8 * (Ty.scalar kind bits).elem.byteSize) := by
    intro v hv c hc
    obtain ⟨helem, -, hempty⟩ := hv.vector
    have hlt := hv.bounded.get_lt hempty hc
    rwa [helem] at hlt
  have hpick : ∀ pick, Yields (fun w : UInt64 => w.toNat < 2 ^ (8 * (Ty.scalar kind bits).elem.byteSize))
      (shufflePick a b pick) := by
    intro pick
    unfold shufflePick
    exact .ite (fun hlt => .ok (hcomp ha hlt)) fun _ => .ite (fun hlt => .ok (hcomp hb hlt)) fun _ => .error _
  refine .bind (P := fun words => ∀ w ∈ words, w.toNat < 2 ^ (8 * (Ty.scalar kind bits).elem.byteSize)) ?_
    fun words hwords => .ok (.assign (hresult.fill fun c _ _ => ?_))
  · exact .mapM fun c _ => hpick _
  · have helem : result.elem = (Ty.scalar kind bits).elem := by
      rw [hty] at hresult
      exact hresult.vector.1
    rw [helem]
    cases hw : words[c]? with
    | none => exact Nat.two_pow_pos _
    | some w => exact hwords w (List.mem_of_getElem? hw)

end Lane

/-! ## Families of instructions -/

namespace Step

variable {s : Setting} {i : Instr} {m : Machine}

theorem on_compute_arithmetic (h : i.op.intOp?.isSome ∨ i.op.floatOp?.isSome) :
    (compute s i).on m = (m.lane.arithmetic i, m) := by
  unfold compute
  cases hop : i.op <;> rw [hop] at h <;> first | rfl | simp [Opcode.intOp?, Opcode.floatOp?] at h

theorem on_compute_compare {kind : ScalarKind} (h : i.op.compares kind) :
    (compute s i).on m = (m.lane.compare i, m) := by
  unfold compute
  cases hop : i.op <;> rw [hop] at h <;> cases kind <;> first
    | rfl
    | simp [Opcode.compares, Opcode.intHolds?, Opcode.floatHolds?] at h

theorem on_compute_cast {kind kind' : ScalarKind} {bits bits' : Nat} (h : i.op.Casts kind bits kind' bits') :
    (compute s i).on m = (m.lane.cast i, m) := by
  unfold compute
  generalize i.op = op at h
  cases h <;> rfl

theorem on_compute_bitcast (h : i.op = .bitcast) : (compute s i).on m = (m.lane.cast i, m) := by
  unfold compute
  rw [h]
  rfl

theorem on_compute_vector (h : i.op = .extractVal ∨ i.op = .extractElement ∨ i.op = .insertElement ∨
    i.op = .shuffleVector) : (compute s i).on m = (m.lane.vector i, m) := by
  unfold compute
  rcases h with h | h | h | h <;> rw [h] <;> rfl

theorem on_compute_phi (h : i.op = .phi) : (compute s i).on m = (m.lane.phi i, m) := by
  unfold compute
  rw [h]
  rfl

theorem on_compute_select (h : i.op = .select) : (compute s i).on m = (m.lane.select i, m) := by
  unfold compute
  rw [h]
  rfl

end Step

end Lockstep
