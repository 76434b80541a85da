import Lockstep.Proofs.Shape
import Lockstep.Proofs.Width

set_option autoImplicit false

/-! # Values of types

The zero of a type is a value of it. Components of a value may be replaced by others that fit its element
type (`Variable.HasType.fill`, `Variable.HasType.set`), and the members of a value of an array or a structure are
values of their types. -/

namespace Lockstep

namespace Variable

variable {v w : Variable} {ty elem : Ty} {n : Nat}

/-! ## Leaves -/

theorem shape_eq (v : Variable) : v.shape = .node v.elem v.rows v.columns (shapes v.members) := by
  cases v
  rfl

theorem leaves_of_isEmpty (h : v.members.isEmpty) :
    v.leaves = (List.range v.compCount).map fun c => (v.elem, v.get c) := by
  cases v
  exact if_pos h

theorem leaves_of_members (h : ¬ v.members.isEmpty) : v.leaves = leavesOf v.members := by
  cases v
  exact if_neg h

/-- A component that a value has fits its element type. -/
theorem IsBounded.get_lt (hv : v.IsBounded) (h : v.members.isEmpty) {c : Nat} (hc : c < v.compCount) :
    (v.get c).toNat < 2 ^ (8 * v.elem.byteSize) := by
  unfold IsBounded at hv
  rw [leaves_of_isEmpty h] at hv
  exact hv _ (List.mem_map_of_mem (List.mem_range.2 hc))

theorem IsBounded.member (hv : v.IsBounded) (hw : w ∈ v.members) : w.IsBounded := by
  intro x hx
  have hempty : ¬ v.members.isEmpty := fun h => by
    rw [List.isEmpty_iff.1 h] at hw
    cases hw
  refine hv x ?_
  rw [leaves_of_members hempty, leavesOf_eq_flatMap]
  exact List.mem_flatMap.2 ⟨w, hw, hx⟩

/-- A value with another content, if the components of a leaf fit. -/
theorem HasType.withValue (hv : v.HasType ty) {value : Value}
    (h : v.members.isEmpty → ∀ c, c < v.compCount → (value.get c).toNat < 2 ^ (8 * v.elem.byteSize)) :
    ({ v with value } : Variable).HasType ty := by
  refine ⟨?_, ?_⟩
  · rw [shape_eq, ← hv.shape, shape_eq v]
  · by_cases hempty : v.members.isEmpty
    · intro x hx
      rw [leaves_of_isEmpty (v := { v with value }) hempty] at hx
      obtain ⟨c, hc, rfl⟩ := List.mem_map.1 hx
      exact h hempty c (List.mem_range.1 hc)
    · have hbounded := hv.bounded
      unfold IsBounded at hbounded ⊢
      rw [leaves_of_members hempty] at hbounded
      rw [leaves_of_members (v := { v with value }) hempty]
      exact hbounded

theorem HasType.fill (hv : v.HasType ty) {f : Nat → UInt64}
    (h : ∀ c, c < v.compCount → c < 16 → (f c).toNat < 2 ^ (8 * v.elem.byteSize)) : (v.fill f).HasType ty := by
  refine hv.withValue fun _ c hc => ?_
  rw [Value.get_fill]
  split
  · next hlt => exact h c hc hlt.2
  · rw [Value.get_of_ge _ (by omega)]
    exact Nat.two_pow_pos _

theorem HasType.set (hv : v.HasType ty) {c : Nat} {bits : UInt64}
    (h : bits.toNat < 2 ^ (8 * v.elem.byteSize)) : (v.set c bits).HasType ty := by
  refine hv.withValue fun hempty d hd => ?_
  by_cases hdc : d = c
  · subst hdc
    by_cases hlt : d < 16
    · rwa [Value.get_set_self _ hlt]
    · rw [Value.get_of_ge _ (by omega)]
      exact Nat.two_pow_pos _
  · rw [Value.get_set_of_ne _ hdc]
    exact hv.bounded.get_lt hempty hd

theorem HasType.fillOr (hv : v.HasType ty) {fault : Fault} {f : Nat → Option UInt64}
    (h : ∀ c bits, f c = some bits → bits.toNat < 2 ^ (8 * v.elem.byteSize))
    (hok : v.fillOr fault f = .ok w) : w.HasType ty := by
  unfold Variable.fillOr at hok
  split at hok
  · cases hok
    refine hv.fill fun c _ _ => ?_
    cases hf : f c with
    | none => exact Nat.two_pow_pos _
    | some bits => exact h c bits hf
  · cases hok

theorem HasType.flushed (hv : v.HasType ty) : v.flushed.HasType ty := by
  unfold Variable.flushed
  split
  · refine hv.withValue fun hempty c hc => ?_
    rw [Value.get_fill]
    split
    · exact Nat.lt_of_le_of_lt (v.elem.flush_le _) (hv.bounded.get_lt hempty hc)
    · exact hv.bounded.get_lt hempty hc
  · exact hv

theorem HasType.withName (hv : v.HasType ty) (name : String) : (v.withName name).HasType ty := by
  refine ⟨(shape_withName v name).trans hv.shape, ?_⟩
  unfold IsBounded
  rw [leaves_withName]
  exact hv.bounded

theorem HasType.ofBytes (hv : v.HasType ty) (bytes : Bytes) : (v.ofBytes bytes).HasType ty :=
  ⟨(hasType_refill v bytes).1.trans hv.shape, (hasType_refill v bytes).2⟩

/-! ## Zeros -/

theorem elem_zeroed (name : String) : (ty : Ty) → (zeroed name ty).elem = ty.elem
  | .pointer pointee _ => by
    rw [zeroed]
    exact elem_zeroed name pointee
  | .array .. | .vector .. | .struct .. | .handle | .void | .label | .scalar .. => by
    rw [zeroed]
    rfl

theorem hasType_zeroed (name : String) (ty : Ty) : (zeroed name ty).HasType ty := by
  have hzero : (zeroed name ty).Shows [] := shows_zeroed ty name [] fun b hb => nomatch hb
  rw [← hzero]
  exact hasType_ofBytes name ty []

/-- A value of a pointer type has the type that it points to. -/
theorem hasType_pointer {space : AddressSpace} : v.HasType (.pointer ty space) ↔ v.HasType ty := by
  have hzero : zeroed "" (.pointer ty space) = zeroed "" ty := by rw [zeroed]
  exact ⟨fun h => ⟨hzero ▸ h.shape, h.bounded⟩, fun h => ⟨hzero ▸ h.shape, h.bounded⟩⟩

/-! ## Numbers and vectors -/

theorem eq_nil_of_shapes {vs : List Variable} (h : shapes vs = []) : vs = [] := by
  cases vs with
  | nil => rfl
  | cons v vs => cases h

theorem HasType.vector (hv : v.HasType (.vector elem n)) :
    v.elem = elem.elem ∧ v.compCount = n.toUInt8.toNat ∧ v.members.isEmpty := by
  have hshape := hv.shape
  rw [zeroed, shape_eq, shape_eq] at hshape
  obtain ⟨helem, hrows, hcolumns, hmembers⟩ := Shape.node.inj hshape
  refine ⟨helem, ?_, List.isEmpty_iff.2 (eq_nil_of_shapes hmembers)⟩
  unfold compCount
  rw [hrows, hcolumns]
  exact Nat.one_mul _

theorem HasType.scalar {kind : ScalarKind} (hv : v.HasType (.scalar kind n)) :
    v.elem = (Ty.scalar kind n).elem ∧ v.compCount = 1 ∧ v.members.isEmpty := by
  have hshape := hv.shape
  rw [zeroed, shape_eq, shape_eq] at hshape
  obtain ⟨helem, hrows, hcolumns, hmembers⟩ := Shape.node.inj hshape
  refine ⟨helem, ?_, List.isEmpty_iff.2 (eq_nil_of_shapes hmembers)⟩
  unfold compCount
  rw [hrows, hcolumns]
  rfl

/-! ## Members -/

theorem HasType.elements (hv : v.HasType (.array elem n)) (hw : w ∈ v.members) : w.HasType elem := by
  refine ⟨?_, hv.bounded.member hw⟩
  have hshape := hv.shape
  rw [zeroed, shape_eq, shape_eq] at hshape
  have hmembers := (Shape.node.inj hshape).2.2.2
  have hmem : w.shape ∈ shapes v.members := by
    rw [shapes_eq_map]
    exact List.mem_map_of_mem hw
  rw [hmembers, shapes_eq_map, List.map_map] at hmem
  obtain ⟨i, -, hi⟩ := List.mem_map.1 hmem
  rw [← hi]
  exact shape_zeroed elem _ _

theorem shapes_zeroedFields (members : List Ty) (i : Nat) :
    shapes (zeroedFields i members) = members.map fun ty => (zeroed "" ty).shape := by
  induction members generalizing i with
  | nil => rfl
  | cons ty rest ih =>
      rw [zeroedFields, shapes, ih, List.map_cons]
      exact congrArg (· :: _) (shape_zeroed ty _ _)

theorem HasType.field {name : String} {members : List Ty} {k : Nat}
    (hv : v.HasType (.struct name members)) (hty : members[k]? = some ty) (hw : v.members[k]? = some w) :
    w.HasType ty := by
  refine ⟨?_, hv.bounded.member (List.mem_of_getElem? hw)⟩
  have hshape := hv.shape
  rw [zeroed, shape_eq, shape_eq] at hshape
  have hmembers := (Shape.node.inj hshape).2.2.2
  have hk := congrArg (·[k]?) (hmembers.trans (shapes_zeroedFields members 0))
  rw [shapes_eq_map] at hk
  simpa [hty, hw] using hk

/-! ## Building values -/

theorem hasType_scalar (kind : ScalarKind) (bits : Nat) (word : UInt64) :
    (scalar "" (Ty.scalar kind bits).elem word).HasType (.scalar kind bits) := by
  have hzero := hasType_zeroed "" (.scalar kind bits)
  rw [zeroed] at hzero
  exact hzero.set (ElemType.and_mask_bits_lt ..)

theorem hasType_ofWords {words : List UInt64}
    (h : ∀ word ∈ words, word.toNat < 2 ^ (8 * elem.elem.byteSize)) :
    (ofWords "" elem.elem words).HasType (.vector elem words.length) := by
  have hzero := hasType_zeroed "" (.vector elem words.length)
  rw [zeroed] at hzero
  refine hzero.withValue fun _ c _ => ?_
  unfold Value.ofList
  rw [Value.get_fill]
  split
  · next hlt =>
      rw [List.getElem?_eq_getElem hlt.1]
      exact h _ (List.getElem_mem hlt.1)
  · rw [Value.get_zero]
    exact Nat.two_pow_pos _

/-- Members that are replaced by values of their types. -/
theorem replaceMembers_hasType {ms vs : List Variable} (hms : ∀ m ∈ ms, m.IsBounded)
    (hvs : ∀ (k : Nat) (m v : Variable), ms[k]? = some m → vs[k]? = some v →
      v.shape = m.shape ∧ v.IsBounded) :
    shapes (Constant.replaceMembers ms vs) = shapes ms ∧
      ∀ x ∈ leavesOf (Constant.replaceMembers ms vs), x.2.toNat < 2 ^ (8 * x.1.byteSize) := by
  have hrest : ∀ x ∈ leavesOf ms, x.2.toNat < 2 ^ (8 * x.1.byteSize) := by
    intro x hx
    rw [leavesOf_eq_flatMap] at hx
    obtain ⟨m, hm, hx⟩ := List.mem_flatMap.1 hx
    exact hms m hm x hx
  induction ms generalizing vs with
  | nil => exact ⟨rfl, hrest⟩
  | cons m ms ih =>
      cases vs with
      | nil => exact ⟨rfl, hrest⟩
      | cons v vs =>
          rw [Constant.replaceMembers, shapes, shapes, leavesOf]
          obtain ⟨hshape, hbounded⟩ := hvs 0 m v rfl rfl
          obtain ⟨hshapes, hleaves⟩ := ih (fun m hm => hms m (List.mem_cons_of_mem _ hm))
            (fun k => hvs (k + 1)) fun x hx => hrest x (by rw [leavesOf]; exact List.mem_append_right _ hx)
          rw [shape_withName, hshape, hshapes, leaves_withName]
          refine ⟨rfl, fun x hx => ?_⟩
          rcases List.mem_append.1 hx with hx | hx
          · exact hbounded x hx
          · exact hleaves x hx

/-- The zero of a type whose members are replaced by values of their types. -/
theorem hasType_replaceMembers {vs : List Variable}
    (hvs : ∀ (k : Nat) (m v : Variable), (zeroed "" ty).members[k]? = some m → vs[k]? = some v →
      v.shape = m.shape ∧ v.IsBounded) :
    ({ zeroed "" ty with members := Constant.replaceMembers (zeroed "" ty).members vs } : Variable).HasType
      ty := by
  have hzero := hasType_zeroed "" ty
  obtain ⟨hshapes, hleaves⟩ := replaceMembers_hasType (fun m hm => hzero.bounded.member hm) hvs
  have hempty := isEmpty_of_shapes hshapes
  refine ⟨?_, ?_⟩
  · rw [shape_eq, shape_eq]
    exact congrArg (Shape.node _ _ _) hshapes
  · by_cases hmembers : (zeroed "" ty).members.isEmpty
    · have hbounded := hzero.bounded
      unfold IsBounded at hbounded ⊢
      rw [leaves_of_isEmpty hmembers] at hbounded
      rw [leaves_of_isEmpty (hempty.trans hmembers)]
      exact hbounded
    · unfold IsBounded
      rw [leaves_of_members (by rw [hempty]; exact hmembers)]
      exact hleaves

end Variable

end Lockstep
