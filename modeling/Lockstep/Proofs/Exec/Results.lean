import Lockstep.Exec.Dispatch
import Lockstep.Proofs.Except
import Mathlib.Data.Option.Basic

set_option autoImplicit false

/-! # What instructions give

An instruction that assigns a value assigns it to its own result, under the result's name
(`Instr.Gives`). This holds for all that only compute, one lemma for each family. -/

namespace Lockstep

/-- Whether the intrinsic has a value. The others store, wait or stop the lane. -/
def Intrinsic.produces : Intrinsic → Bool
  | .storeOutput | .barrier | .discard | .bufferStore | .rawBufferStore | .textureStore => false
  | _ => true

namespace Instr

/-- Whether the instruction has a value. -/
def produces (i : Instr) : Bool :=
  match i.op, i.callee with
  | .noOp, _ | .fence, _ | .store, _ | .storeAtomic, _ => false
  | .ret, _ | .br, _ | .switch, _ | .unreachable, _ => false
  | .call, some (.intrinsic op) => op.produces
  | .call, _ => false
  | _, _ => true

theorem produces_of_intrinsic? {i : Instr} {op : Intrinsic} (hop : i.intrinsic? = some op) :
    i.produces = op.produces := by
  unfold intrinsic? at hop
  split at hop
  · next hcall hcallee =>
      cases hop
      rw [produces, hcall, hcallee]
  · cases hop

theorem not_produces_of_intrinsic? {i : Instr} {op : Intrinsic} (hop : i.intrinsic? = some op)
    (h : op.produces = false) : ¬ i.produces := by
  rw [produces_of_intrinsic? hop, h]
  exact Bool.false_ne_true

theorem not_produces_of_isTerminator {i : Instr} (h : i.isTerminator) : ¬ i.produces := by
  unfold isTerminator at h
  unfold produces
  cases hop : i.op <;> simp_all [Opcode.isTerminator]

theorem not_produces_of_isNop {i : Instr} (h : i.isNop) : ¬ i.produces := by
  unfold isNop at h
  unfold produces
  split at h <;> simp_all

end Instr

/-- An effect that assigns nothing but the result of the instruction, under its name. An instruction
    that has a value assigns it, and none but a discard stops the lane. -/
inductive Instr.Gives (i : Instr) : Effect → Prop
  | proceed (hi : ¬ i.produces) : Gives i .proceed
  | kill (hop : i.intrinsic? = some .discard) : Gives i .kill
  | value (id : Id) (v : Variable) (hid : i.result = some id) (hname : v.name = i.resultName id) :
      Gives i (.value id v)

/-! ## Names of variables -/

namespace Variable

variable {v w : Variable}

@[simp] theorem name_set (v : Variable) (c : Nat) (bits : UInt64) : (v.set c bits).name = v.name := rfl

@[simp] theorem name_fill (v : Variable) (f : Nat → UInt64) : (v.fill f).name = v.name := rfl

@[simp] theorem name_setIntComp (v : Variable) (c : Nat) (bits : UInt64) :
    (v.setIntComp c bits).name = v.name := rfl

@[simp] theorem name_withName (v : Variable) (name : String) : (v.withName name).name = name := rfl

@[simp] theorem name_flushed (v : Variable) : v.flushed.name = v.name := by
  unfold flushed
  split <;> rfl

@[simp] theorem name_ofBytes (v : Variable) (bytes : Bytes) : (v.ofBytes bytes).name = v.name := by
  unfold ofBytes
  cases v
  rw [refill]
  split <;> rfl

@[simp] theorem name_zeroed (name : String) : (ty : Ty) → (zeroed name ty).name = name
  | .pointer pointee _ => by
    rw [zeroed]
    exact name_zeroed name pointee
  | .array .. => by rw [zeroed]
  | .struct .. | .vector .. | .handle | .void | .label | .scalar .. => by
    rw [zeroed]
    rfl

theorem name_of_fillOr {fault : Fault} {f : Nat → Option UInt64} (h : v.fillOr fault f = .ok w) :
    w.name = v.name := by
  unfold fillOr at h
  split at h
  · cases h
    rfl
  · cases h

end Variable

namespace Instr

variable {i : Instr}

theorem yields_resultId : Yields (fun id => i.result = some id) i.resultId := by
  unfold resultId
  split
  · next id hid => exact .ok hid
  · exact .error _

theorem yields_blank :
    Yields (fun r => i.result = some r.1 ∧ r.2.name = i.resultName r.1) i.blank := by
  intro r h
  obtain ⟨id, hid, rfl⟩ := ok_of_map h
  exact ⟨yields_resultId id hid, Variable.name_zeroed _ _⟩

end Instr

namespace Lane

variable {l : Lane} {i : Instr} {op : Intrinsic}

/-! ## Choices, numbers and vectors -/

theorem gives_phi : Yields i.Gives (l.phi i) := by
  unfold phi
  refine .bind Instr.yields_resultId fun id hid => .after fun o => ?_
  split
  · exact .error _
  · split
    · exact .error _
    · exact .ok (.value id _ hid rfl)
  · exact .after fun v => .ok (.value id _ hid rfl)

theorem gives_select : Yields i.Gives (l.select i) := by
  unfold select
  refine .bind Instr.yields_resultId fun id hid => .after fun cond => .after fun ifTrue => ?_
  have hgives : ∀ chosen : Variable, Yields i.Gives
      (.ok (.value id (chosen.withName (i.resultName id))) : Except Fault Effect) :=
    fun chosen => .ok (.value id _ hid rfl)
  exact .ite (fun _ => .after hgives) fun _ => .ite (fun _ => .after hgives) fun _ => .after hgives

theorem gives_arithmetic : Yields i.Gives (l.arithmetic i) := by
  unfold arithmetic
  refine .bind Instr.yields_blank fun ⟨id, result⟩ ⟨hid, hname⟩ => .after fun a => .after fun b => ?_
  split
  · exact .guard (.ok (.value id _ hid hname))
  · split
    · refine .bind (fun _ => Variable.name_of_fillOr) fun v hv => ?_
      exact .ok (.value id v hid (hv.trans hname))
    · exact .error _

theorem gives_compare : Yields i.Gives (l.compare i) := by
  unfold compare
  refine .bind Instr.yields_blank fun ⟨id, result⟩ ⟨hid, hname⟩ => .after fun a => .after fun b => ?_
  refine .bind (fun _ => Variable.name_of_fillOr) fun v hv => ?_
  exact .ok (.value id v hid (hv.trans hname))

theorem gives_cast : Yields i.Gives (l.cast i) := by
  unfold cast
  refine .bind Instr.yields_blank fun ⟨id, result⟩ ⟨hid, hname⟩ => .after fun a => ?_
  refine .ite (fun _ => .guard (.ok (.value id _ hid ?_))) fun _ => ?_
  · rw [Variable.name_ofBytes]
    exact hname
  · refine .bind (fun _ => Variable.name_of_fillOr) fun v hv => ?_
    exact .ok (.value id v hid (hv.trans hname))

theorem gives_extractFrom {id : Id} (hid : i.result = some id) {result current : Variable}
    (hname : result.name = i.resultName id) (index count : Nat) :
    Yields i.Gives (l.extractFrom i id result current index count) := by
  induction count generalizing current index with
  | zero => exact .ok (.value id _ hid rfl)
  | succ n ih =>
      rw [extractFrom]
      refine .after fun pick => .ite (fun _ => .guard (.ok (.value id _ hid hname))) fun _ => ?_
      split
      · exact .error _
      · exact ih _

theorem gives_vector : Yields i.Gives (l.vector i) := by
  unfold vector
  refine .bind Instr.yields_blank fun ⟨id, result⟩ ⟨hid, hname⟩ => .after fun a => ?_
  split
  · exact .guard (gives_extractFrom hid hname _ _)
  · exact .after fun pick => .guard (.ok (.value id _ hid hname))
  · exact .after fun b => .after fun pick => .guard (.ok (.value id _ hid hname))
  · exact .after fun b => .after fun picks => .after fun words => .ok (.value id _ hid hname)
  · exact .error _

/-! ## Mathematical intrinsics -/

theorem gives_roundMath (fn : UInt64 → UInt64) : Yields i.Gives (l.roundMath i op fn) := by
  unfold roundMath
  refine .bind Instr.yields_blank fun ⟨id, result⟩ ⟨hid, hname⟩ => .after fun a => ?_
  refine .bind (fun _ => Variable.name_of_fillOr) fun v hv => ?_
  exact .ok (.value id v hid (hv.trans hname))

theorem gives_classifyMath (test : ElemType → UInt64 → Bool) :
    Yields i.Gives (l.classifyMath i op test) := by
  unfold classifyMath
  refine .bind Instr.yields_blank fun ⟨id, result⟩ ⟨hid, hname⟩ => .after fun a => ?_
  exact .guard (.ok (.value id _ hid hname))

theorem gives_intMath (intOp : IntOp) : Yields i.Gives (l.intMath i intOp) := by
  unfold intMath
  refine .bind Instr.yields_blank fun ⟨id, result⟩ ⟨hid, hname⟩ => .after fun a => .after fun b => ?_
  exact .ok (.value id _ hid hname)

theorem gives_dot (size : Nat) : Yields i.Gives (l.dot i op size) := by
  unfold dot
  refine .bind Instr.yields_blank fun ⟨id, result⟩ ⟨hid, hname⟩ => .after fun sum => ?_
  exact .ok (.value id _ hid hname)

theorem gives_bitMath (fn : Nat → UInt64 → UInt64) : Yields i.Gives (l.bitMath i op fn) := by
  unfold bitMath
  refine .bind Instr.yields_blank fun ⟨id, result⟩ ⟨hid, hname⟩ => .after fun a => ?_
  exact .guard (.ok (.value id _ hid hname))

theorem gives_floatMath (floatOp : FloatOp) : Yields i.Gives (l.floatMath i op floatOp) := by
  unfold floatMath
  refine .bind Instr.yields_blank fun ⟨id, result⟩ ⟨hid, hname⟩ => .after fun a => .after fun b => ?_
  split
  · exact .ok (.value id _ hid hname)
  · exact .error _

theorem gives_floatMulAdd : Yields i.Gives (l.floatMulAdd i op) := by
  unfold floatMulAdd
  refine .bind Instr.yields_blank fun ⟨id, result⟩ ⟨hid, hname⟩ => .after fun a => .after fun b => ?_
  refine .after fun c => ?_
  dsimp only
  split
  · exact .ok (.value id _ hid hname)
  · exact .error _

theorem gives_intMulAdd : Yields i.Gives (l.intMulAdd i) := by
  unfold intMulAdd
  refine .bind Instr.yields_blank fun ⟨id, result⟩ ⟨hid, hname⟩ => .after fun a => .after fun b => ?_
  exact .after fun c => .ok (.value id _ hid hname)

theorem gives_makeDouble : Yields i.Gives (l.makeDouble i) := by
  unfold makeDouble
  refine .bind Instr.yields_blank fun ⟨id, result⟩ ⟨hid, hname⟩ => .after fun low => ?_
  exact .after fun high => .ok (.value id _ hid hname)

theorem gives_splitDouble : Yields i.Gives (l.splitDouble i) := by
  unfold splitDouble
  refine .bind Instr.yields_blank fun ⟨id, result⟩ ⟨hid, hname⟩ => .after fun bits => ?_
  dsimp only
  split
  · exact .ok (.value id _ hid hname)
  · exact .ok (.value id _ hid hname)

theorem gives_toHalfBits : Yields i.Gives (l.toHalfBits i) := by
  unfold toHalfBits
  refine .bind Instr.yields_blank fun ⟨id, result⟩ ⟨hid, hname⟩ => .after fun v => ?_
  exact .ok (.value id _ hid hname)

theorem gives_ofHalfBits : Yields i.Gives (l.ofHalfBits i) := by
  unfold ofHalfBits
  refine .bind Instr.yields_blank fun ⟨id, result⟩ ⟨hid, hname⟩ => .after fun h => ?_
  exact .ok (.value id _ hid hname)

theorem gives_otherMath {x : Except Fault Effect} (hx : l.otherMath? i op = some x) :
    Yields i.Gives x := by
  unfold otherMath? at hx
  split at hx <;> cases hx
  · exact gives_floatMath _
  · exact gives_floatMath _
  · exact gives_floatMulAdd
  · exact gives_floatMulAdd
  · exact gives_intMulAdd
  · exact gives_intMulAdd
  · exact gives_makeDouble
  · exact gives_splitDouble
  · exact gives_toHalfBits
  · exact gives_ofHalfBits

theorem gives_math {x : Except Fault Effect} (hx : l.math? i op = some x) : Yields i.Gives x := by
  unfold math? at hx
  simp only [Option.orElse_eq_some, Option.map_eq_some_iff] at hx
  rcases hx with ⟨fn, -, rfl⟩ | ⟨-, ⟨test, -, rfl⟩ | ⟨-, ⟨intOp, -, rfl⟩ | ⟨-, ⟨size, -, rfl⟩ |
    ⟨-, ⟨fn, -, rfl⟩ | ⟨-, hx⟩⟩⟩⟩⟩
  · exact gives_roundMath fn
  · exact gives_classifyMath test
  · exact gives_intMath intOp
  · exact gives_dot size
  · exact gives_bitMath fn
  · exact gives_otherMath hx

/-! ## Signature, builtin values and the group -/

theorem gives_loadInput : Yields i.Gives (l.loadInput i) := by
  unfold loadInput
  refine .bind Instr.yields_blank fun ⟨id, result⟩ ⟨hid, hname⟩ => .after fun element => ?_
  refine .after fun row => .after fun column => .after fun ⟨e, c⟩ => ?_
  exact .ok (.value id _ hid hname)

/-- What stores output does nothing or replaces members of the output. -/
theorem storeOutput_ok {recording : Bool} {e : Effect} (h : l.storeOutput i recording = .ok e) :
    e = .proceed ∨ ∃ members, e = .value l.outputId { l.output with members } := by
  obtain ⟨_, -, h⟩ := ok_of_bind h
  obtain ⟨_, -, h⟩ := ok_of_bind h
  obtain ⟨_, -, h⟩ := ok_of_bind h
  obtain ⟨_, -, h⟩ := ok_of_bind h
  split at h
  · exact .inl (ok_inj h).symm
  · obtain ⟨_, -, h⟩ := ok_of_bind h
    exact .inr ⟨_, (ok_inj h).symm⟩

theorem gives_readBuiltin (b : Bindings) (builtin : Builtin) :
    Yields i.Gives (l.readBuiltin b i op builtin) := by
  unfold readBuiltin
  refine .bind Instr.yields_blank fun ⟨id, result⟩ ⟨hid, hname⟩ => ?_
  dsimp only
  refine .ite (fun _ => .after fun component => ?_) fun _ => .after fun component => ?_
  all_goals
    split
    · exact .error _
    · exact .guard (.ok (.value id _ hid hname))

theorem gives_discard (hop : i.intrinsic? = some .discard) : Yields i.Gives (l.discard i) := by
  refine .map fun cond => ?_
  split
  · exact .kill hop
  · exact .proceed (Instr.not_produces_of_intrinsic? hop rfl)

theorem gives_derivativeOf (lanes : List Lane) (axis : Axis) (fine : Bool) :
    Yields i.Gives (l.derivativeOf lanes i op axis fine) := by
  unfold derivativeOf
  refine .bind Instr.yields_blank fun ⟨id, result⟩ ⟨hid, hname⟩ => ?_
  dsimp only
  split
  · exact .error _
  · refine .ite (fun _ => .ok (.value id _ hid hname)) fun _ => ?_
    exact .after fun v => .ok (.value id _ hid hname)

theorem gives_barrier (hop : i.intrinsic? = some .barrier) (lanes : List Lane) :
    Yields i.Gives (l.barrier lanes i) := by
  unfold barrier
  exact .after fun mode => .guard (.ok (.proceed (Instr.not_produces_of_intrinsic? hop rfl)))

/-- A pointer that is placed at an offset is that of a value which lies inside the allocation. -/
theorem placeAt_ok {base : Id} {allocated : Nat} {offset : Int} {ty : Ty} {q : Pointer}
    (h : placeAt base allocated offset ty = .ok q) :
    0 ≤ offset ∧ offset + ty.byteSize ≤ allocated ∧ q = ⟨base, offset.toNat, ty.byteSize, ty⟩ := by
  unfold placeAt at h
  dsimp only at h
  split at h
  · next hinside =>
      cases h
      exact ⟨hinside.1, hinside.2, rfl⟩
  · cases h

/-- What a derived pointer is put together from: the pointer that it is derived from, the value that
    the first index selects, and the path of the others. -/
theorem derive_ok {shared : Memory} {q : Pointer} (h : l.derive shared i = .ok q) :
    ∃ src base first start offset ty a, i.argId 0 = .ok src ∧ l.resolve shared src = .ok base ∧
      l.arg i 1 = .ok first ∧
      advance (signedSize base.offset) (first.intComp 0).toInt base.pointee.byteSize = .ok start ∧
      l.selectPath i start base.pointee 2 (i.args.length - 2) = .ok (offset, ty) ∧
      (l.memoryOf shared base.base).allocation? base.base = some a ∧
      placeAt base.base a.bytes.length offset ty = .ok q := by
  unfold derive at h
  obtain ⟨src, hsrc, h₁⟩ := ok_of_bind h
  obtain ⟨base, hbase, h₂⟩ := ok_of_bind h₁
  obtain ⟨-, h₃⟩ := ok_of_guard h₂
  obtain ⟨first, hfirst, h₄⟩ := ok_of_bind h₃
  obtain ⟨start, hstart, h₅⟩ := ok_of_bind h₄
  obtain ⟨selected, hpath, h₆⟩ := ok_of_bind h₅
  dsimp only at h₆
  -- whether a type is declared or not, what is left is to place the pointer
  have hplace : ∃ a, (l.memoryOf shared base.base).allocation? base.base = some a ∧
      placeAt base.base a.bytes.length selected.1 selected.2 = .ok q := by
    cases ha : (l.memoryOf shared base.base).allocation? base.base with
    | none =>
        rw [ha] at h₆
        cases hty : i.ty.pointee? with
        | none =>
            rw [hty] at h₆
            cases h₆
        | some declared =>
            rw [hty] at h₆
            cases (ok_of_guard h₆).2
    | some a =>
        rw [ha] at h₆
        refine ⟨a, rfl, ?_⟩
        cases hty : i.ty.pointee? with
        | none =>
            rw [hty] at h₆
            exact h₆
        | some declared =>
            rw [hty] at h₆
            exact (ok_of_guard h₆).2
  obtain ⟨a, ha, hq⟩ := hplace
  exact ⟨src, base, first, start, selected.1, selected.2, a, hsrc, hbase, hfirst, hstart, hpath, ha, hq⟩

/-- A derived pointer leads to the allocation of the pointer that it is derived from. -/
theorem yields_derive {shared : Memory} :
    Yields (fun q => ∃ id p, i.argId 0 = .ok id ∧ l.resolve shared id = .ok p ∧ q.base = p.base)
      (l.derive shared i) := by
  intro q hq
  obtain ⟨src, base, _, _, _, _, a, hsrc, hbase, -, -, -, -, hplace⟩ := derive_ok hq
  obtain ⟨-, -, rfl⟩ := placeAt_ok hplace
  exact ⟨src, base, hsrc, hbase, rfl⟩

/-- A new handle is the result under its name, and reported, or it is what was set up under the name of
    its resource, and not reported. -/
theorem yields_createHandle (s : Setting) :
    Yields (fun e => i.Gives e ∨ ∃ id v, i.result = some id ∧ e = .assign id v false)
      (l.createHandle s i op) := by
  unfold createHandle
  refine .bind Instr.yields_resultId fun id hid => .after fun number => ?_
  split
  · exact .error _
  · refine .after fun r => ?_
    split
    · exact .error _
    · split
      · exact .ok (.inr ⟨id, _, hid, rfl⟩)
      · exact .ok (.inl (.value id _ hid rfl))

end Lane

end Lockstep
