import Lockstep.Proofs.Layout
import Mathlib.Algebra.Group.Nat.Defs

set_option autoImplicit false

/-! # Shapes of variables

A variable has the shape of a type if it has the members, element types, rows and columns of the type's
zero. Its bytes determine the components of its leaves, if these fit their element types: what is stored
and read back in a shape has the same leaves (`Variable.leaves_ofBytes_toBytes`). -/

namespace Lockstep

/-! ## Words -/

namespace Bytes

theorem toNat_toWord_cons (b : UInt8) (bs : Bytes) :
    (toWord (b :: bs)).toNat = b.toNat ||| (toWord bs).toNat * 256 % 2 ^ 64 := by
  rw [toWord, UInt64.toNat_or, UInt64.toNat_shiftLeft, UInt8.toNat_toUInt64, Nat.shiftLeft_eq]
  rfl

/-- The bytes of a word that fits them are those of the word. -/
theorem toWord_ofWord {w : UInt64} {n : Nat} (h : w.toNat < 2 ^ (8 * n)) : toWord (ofWord w n) = w := by
  induction n generalizing w with
  | zero =>
      have hw : w.toNat = 0 := Nat.lt_one_iff.1 h
      exact (UInt64.toNat_inj.1 hw).symm
  | succ n ih =>
      have hshift : (w >>> 8).toNat = w.toNat / 256 := by
        rw [UInt64.toNat_shiftRight, Nat.shiftRight_eq_div_pow]
        rfl
      have hpow : 2 ^ (8 * (n + 1)) = 256 * 2 ^ (8 * n) := by
        rw [Nat.mul_succ, Nat.add_comm, Nat.pow_add]
      have hrest : (w >>> 8).toNat < 2 ^ (8 * n) := by
        rw [hshift]
        exact Nat.div_lt_of_lt_mul (hpow ▸ h)
      have hbyte : w.toUInt8.toNat = w.toNat % 256 := UInt64.toNat_toUInt8 w
      have hlt : w.toNat < 2 ^ 64 := w.toNat_lt
      refine UInt64.toNat_inj.1 ?_
      rw [ofWord, toNat_toWord_cons, ih hrest, hshift, hbyte, Nat.mod_eq_of_lt (b := 2 ^ 64) (by omega),
        Nat.or_comm, Nat.mul_comm,
        ← Nat.two_pow_add_eq_or_of_lt (i := 8) (Nat.mod_lt _ (by decide))]
      exact Nat.div_add_mod ..

theorem toWord_lt (bs : Bytes) : (toWord bs).toNat < 2 ^ (8 * bs.length) := by
  induction bs with
  | nil => exact Nat.one_pos
  | cons b bs ih =>
      have hpow : 2 ^ (8 * (bs.length + 1)) = 256 * 2 ^ (8 * bs.length) := by
        rw [Nat.mul_succ, Nat.add_comm, Nat.pow_add]
      rw [toNat_toWord_cons, List.length_cons]
      refine Nat.or_lt_two_pow ?_ ?_
      · have hb : b.toNat < 256 := b.toNat_lt
        have hpos : 0 < 2 ^ (8 * bs.length) := Nat.two_pow_pos _
        rw [hpow]
        omega
      · have hle := Nat.mod_le ((toWord bs).toNat * 256) (2 ^ 64)
        rw [hpow]
        omega

theorem wordAt_eq (bs : Bytes) (start width : Nat) : wordAt bs start width =
    if start + width ≤ bs.length then toWord ((bs.drop start).take width) else 0 := by
  unfold wordAt slice?
  by_cases h : start + width ≤ bs.length
  · rw [if_pos ⟨Nat.le_add_right .., h⟩, if_pos h, Nat.add_sub_cancel_left]
    rfl
  · rw [if_neg fun hle => h hle.2, if_neg h]
    rfl

theorem wordAt_lt (bs : Bytes) (start width : Nat) : (wordAt bs start width).toNat < 2 ^ (8 * width) := by
  rw [wordAt_eq]
  split
  · next h =>
      have hlt := toWord_lt ((bs.drop start).take width)
      rwa [List.length_take, List.length_drop, Nat.min_eq_left (by omega)] at hlt
  · exact Nat.two_pow_pos _

theorem wordAt_append (bs rest : Bytes) (start width : Nat) :
    wordAt (bs ++ rest) (bs.length + start) width = wordAt rest start width := by
  rw [wordAt_eq, wordAt_eq, List.length_append, Nat.add_assoc, List.drop_length_add_append]
  simp only [Nat.add_le_add_iff_left]

/-- Each of several words that are put one after another is found in its place. -/
theorem wordAt_flatMap_ofWord {words : List UInt64} {width : Nat} (rest : Bytes)
    (h : ∀ w ∈ words, w.toNat < 2 ^ (8 * width)) {c : Nat} (hc : c < words.length) :
    wordAt ((words.flatMap fun w => ofWord w width) ++ rest) (c * width) width = words[c] := by
  induction words generalizing c with
  | nil => cases hc
  | cons w words ih =>
      rw [List.flatMap_cons, List.append_assoc]
      have hlength := length_ofWord w width
      cases c with
      | zero =>
          rw [wordAt_eq, Nat.zero_mul, Nat.zero_add, List.length_append, hlength,
            if_pos (Nat.le_add_right ..), List.drop_zero, List.take_append_of_le_length (Nat.le_of_eq hlength.symm),
            List.take_of_length_le (Nat.le_of_eq hlength)]
          exact toWord_ofWord (h w List.mem_cons_self)
      | succ c =>
          have happend := wordAt_append (ofWord w width)
            ((words.flatMap fun w => ofWord w width) ++ rest) (c * width) width
          rw [hlength] at happend
          rw [Nat.succ_mul, Nat.add_comm, happend]
          exact ih (fun w hw => h w (List.mem_cons_of_mem _ hw)) (Nat.lt_of_succ_lt_succ hc)

end Bytes

/-! ## Shapes and leaves -/

/-- A tree of members, with element types, rows and columns. -/
inductive Shape
  | node (elem : ElemType) (rows columns : UInt8) (members : List Shape)

namespace Variable

mutual

/-- What is left of a variable without names and contents. -/
def shape : Variable → Shape
  | { elem, rows, columns, members, .. } => .node elem rows columns (shapes members)

/-- The shapes of several variables. -/
def shapes : List Variable → List Shape
  | [] => []
  | v :: vs => v.shape :: shapes vs

end

mutual

/-- The components of the leaves, each with its element type, in the order of their bytes. -/
def leaves : Variable → List (ElemType × UInt64)
  | { elem, rows, columns, value, members, .. } =>
    if members.isEmpty then (List.range (rows.toNat * columns.toNat)).map fun c => (elem, value.get c)
    else leavesOf members

/-- The leaves of several variables, one after another. -/
def leavesOf : List Variable → List (ElemType × UInt64)
  | [] => []
  | v :: vs => v.leaves ++ leavesOf vs

end

/-- Every component of a leaf fits its element type. -/
def IsBounded (v : Variable) : Prop := ∀ x ∈ v.leaves, x.2.toNat < 2 ^ (8 * x.1.byteSize)

/-- A value of a type: it has the shape of the type's zero, and the components of its leaves fit. -/
structure HasType (v : Variable) (ty : Ty) : Prop where
  shape : v.shape = (zeroed "" ty).shape
  bounded : v.IsBounded

variable {v w : Variable} {vs ws : List Variable} {bytes : Bytes}

theorem isEmpty_of_shapes (h : shapes ws = shapes vs) : ws.isEmpty = vs.isEmpty := by
  cases ws <;> cases vs <;> first | rfl | cases h

theorem shapes_eq_map (vs : List Variable) : shapes vs = vs.map shape := by
  induction vs with
  | nil => rfl
  | cons v vs ih => rw [shapes, ih, List.map_cons]

theorem leavesOf_eq_flatMap (vs : List Variable) : leavesOf vs = vs.flatMap leaves := by
  induction vs with
  | nil => rfl
  | cons v vs ih => rw [leavesOf, ih, List.flatMap_cons]

@[simp] theorem shape_withName (v : Variable) (name : String) : (v.withName name).shape = v.shape := by
  cases v
  rfl

@[simp] theorem leaves_withName (v : Variable) (name : String) : (v.withName name).leaves = v.leaves := by
  cases v
  rfl

/-- The shape of a type's zero does not depend on its name. -/
theorem shape_zeroed : (ty : Ty) → (name name' : String) →
    (zeroed name ty).shape = (zeroed name' ty).shape
  | .pointer pointee _, name, name' => by
    rw [zeroed, zeroed]
    exact shape_zeroed pointee name name'
  | .array elem count, name, name' => by
    rw [zeroed, zeroed, shape, shape, shapes_eq_map, shapes_eq_map, List.map_map, List.map_map]
    exact congrArg _ (List.map_congr_left fun i _ => shape_zeroed elem _ _)
  | .struct .., _, _ | .vector .., _, _ | .scalar .., _, _ | .handle, _, _ | .void, _, _
  | .label, _, _ => by
    rw [zeroed, zeroed]
    rfl

/-! ## Bytes of leaves -/

mutual

/-- The bytes of a variable are those of its leaves. -/
theorem toBytes_eq_flatMap : (v : Variable) →
    v.toBytes = v.leaves.flatMap fun x => Bytes.ofWord x.2 x.1.byteSize
  | { members, .. } => by
    rw [toBytes, leaves]
    split
    · rw [List.flatMap_map]
    · exact listToBytes_eq_flatMap members

theorem listToBytes_eq_flatMap : (vs : List Variable) →
    listToBytes vs = (leavesOf vs).flatMap fun x => Bytes.ofWord x.2 x.1.byteSize
  | [] => rfl
  | v :: vs => by
    rw [listToBytes, leavesOf, List.flatMap_append, toBytes_eq_flatMap v, listToBytes_eq_flatMap vs]

end

mutual

/-- To read bytes keeps the shape, and each component that is read fits. -/
theorem hasType_refill : (v : Variable) → (bytes : Bytes) →
    (v.refill bytes).1.shape = v.shape ∧ (v.refill bytes).1.IsBounded
  | { name, elem, rows, columns, value, members, slot }, bytes => by
    rw [refill]
    by_cases hmembers : members.isEmpty
    · rw [if_pos hmembers]
      refine ⟨rfl, fun x hx => ?_⟩
      rw [leaves, if_pos hmembers] at hx
      obtain ⟨c, hc, rfl⟩ := List.mem_map.1 hx
      rw [List.mem_range] at hc
      dsimp only
      rw [Value.get_fill]
      split
      · exact Bytes.wordAt_lt ..
      · next hge =>
          rw [Value.get_of_ge _ (by omega)]
          exact Nat.two_pow_pos _
    · rw [if_neg hmembers]
      obtain ⟨hshape, hbounded⟩ := hasType_refillList members bytes
      refine ⟨congrArg (Shape.node elem rows columns) hshape, fun x hx => ?_⟩
      rw [leaves, isEmpty_refillList, if_neg hmembers] at hx
      exact hbounded x hx

theorem hasType_refillList : (vs : List Variable) → (bytes : Bytes) →
    shapes (refillList vs bytes).1 = shapes vs ∧
      ∀ x ∈ leavesOf (refillList vs bytes).1, x.2.toNat < 2 ^ (8 * x.1.byteSize)
  | [], _ => ⟨rfl, fun _ hx => nomatch hx⟩
  | v :: vs, bytes => by
    rw [refillList]
    dsimp only
    obtain ⟨hshape, hbounded⟩ := hasType_refill v bytes
    obtain ⟨hshapes, hrest⟩ := hasType_refillList vs (bytes.drop (v.refill bytes).2)
    rw [shapes, shapes, leavesOf, hshape, hshapes]
    refine ⟨rfl, fun x hx => ?_⟩
    rcases List.mem_append.1 hx with hx | hx
    · exact hbounded x hx
    · exact hrest x hx

end

/-- What is read from bytes has the type whose zero it is read into. -/
theorem hasType_ofBytes (name : String) (ty : Ty) (bytes : Bytes) :
    ((zeroed name ty).ofBytes bytes).HasType ty :=
  ⟨(hasType_refill _ bytes).1.trans (shape_zeroed ty name ""), (hasType_refill _ bytes).2⟩

mutual

/-- The bytes of a variable, read into a variable of its shape, give its leaves. -/
theorem leaves_refill_toBytes : (v w : Variable) → (rest : Bytes) → w.shape = v.shape → v.IsBounded →
    (w.refill (v.toBytes ++ rest)).1.leaves = v.leaves ∧
      (w.refill (v.toBytes ++ rest)).2 = v.toBytes.length
  | { name, elem, rows, columns, value, members, slot },
    { name := name', elem := elem', rows := rows', columns := columns', value := value',
      members := members', slot := slot' }, rest, h, hbounded => by
    rw [shape, shape] at h
    obtain ⟨rfl, rfl, rfl, hmembers⟩ := Shape.node.inj h
    rw [refill, isEmpty_of_shapes hmembers, toBytes]
    by_cases hempty : members.isEmpty
    · rw [if_pos hempty, if_pos hempty]
      have hleaves : leaves ⟨name, elem', rows', columns', value, members, slot⟩ =
          (List.range (rows'.toNat * columns'.toNat)).map fun c => (elem', value.get c) := by
        rw [leaves, if_pos hempty]
      unfold IsBounded at hbounded
      rw [hleaves] at hbounded ⊢
      dsimp only
      rw [leaves, isEmpty_of_shapes hmembers, if_pos hempty]
      rw [← List.flatMap_map value.get fun w => Bytes.ofWord w elem'.byteSize]
      have hwords : ∀ w ∈ (List.range (rows'.toNat * columns'.toNat)).map value.get,
          w.toNat < 2 ^ (8 * elem'.byteSize) := by
        intro w hw
        obtain ⟨c, hc, rfl⟩ := List.mem_map.1 hw
        exact hbounded _ (List.mem_map_of_mem hc)
      refine ⟨List.map_congr_left fun c hc => ?_, ?_⟩
      · rw [Value.get_fill]
        rw [List.mem_range] at hc
        split
        · rw [Bytes.wordAt_flatMap_ofWord rest hwords (by simpa using hc), List.getElem_map, List.getElem_range]
        · rw [Value.get_of_ge _ (by omega), Value.get_of_ge _ (by omega)]
      · simp [List.length_flatMap, Function.comp_def, List.map_const']
    · rw [if_neg hempty, if_neg hempty]
      have hleaves : leaves ⟨name, elem', rows', columns', value, members, slot⟩ = leavesOf members := by
        rw [leaves, if_neg hempty]
      unfold IsBounded at hbounded
      rw [hleaves] at hbounded ⊢
      obtain ⟨hread, hused⟩ := leavesOf_refillList_toBytes members members' rest hmembers hbounded
      rw [leaves, isEmpty_refillList, isEmpty_of_shapes hmembers, if_neg hempty]
      exact ⟨hread, hused⟩

theorem leavesOf_refillList_toBytes : (vs ws : List Variable) → (rest : Bytes) →
    shapes ws = shapes vs → (∀ x ∈ leavesOf vs, x.2.toNat < 2 ^ (8 * x.1.byteSize)) →
    leavesOf (refillList ws (listToBytes vs ++ rest)).1 = leavesOf vs ∧
      (refillList ws (listToBytes vs ++ rest)).2 = (listToBytes vs).length
  | [], [], _, _, _ => ⟨rfl, rfl⟩
  | v :: vs, w :: ws, rest, h, hbounded => by
    rw [shapes, shapes] at h
    obtain ⟨hshape, hshapes⟩ := List.cons.inj h
    rw [leavesOf] at hbounded
    rw [listToBytes, List.append_assoc, refillList]
    dsimp only
    obtain ⟨hv, hused⟩ := leaves_refill_toBytes v w (listToBytes vs ++ rest) hshape
      fun x hx => hbounded x (List.mem_append_left _ hx)
    rw [hused, List.drop_left]
    obtain ⟨hvs, hrest⟩ := leavesOf_refillList_toBytes vs ws rest hshapes
      fun x hx => hbounded x (List.mem_append_right _ hx)
    rw [leavesOf, leavesOf, hv, hvs, hrest, List.length_append]
    exact ⟨rfl, rfl⟩
  | [], _ :: _, _, h, _ | _ :: _, [], _, h, _ => nomatch h

end

/-- What starts with the bytes of a variable, read into a variable of its shape, gives its leaves. -/
theorem leaves_ofBytes_toBytes (hshape : w.shape = v.shape) (hv : v.IsBounded) (rest : Bytes) :
    (w.ofBytes (v.toBytes ++ rest)).leaves = v.leaves :=
  (leaves_refill_toBytes v w rest hshape hv).1

end Variable

end Lockstep
