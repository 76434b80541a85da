import Lockstep.Proofs.View.Encode
import Mathlib.Data.List.Basic

set_option autoImplicit false

/-! # A variable and its bytes determine each other

The bytes of a variable, read into a variable of its shape, give each leaf component cut to its element type,
whatever stands behind them; and any bytes of that length that are read into such a variable are its bytes
then, if no leaf has more components than a value holds (`Variable.flatten_unflatten`). -/

namespace Lockstep

theorem ElemType.byteSize_le (t : ElemType) : t.byteSize ≤ 8 := by cases t <;> decide

namespace Bytes

/-- The bytes of a word of a string are a part of the string. -/
theorem ofWord_wordAt {bs : Bytes} {start width : Nat} (h8 : width ≤ 8) (h : start + width ≤ bs.length) :
    ofWord (bs.wordAt start width) width = (bs.drop start).take width := by
  have hlength : ((bs.drop start).take width).length = width := by
    rw [List.length_take, List.length_drop]
    omega
  have hword := ofWord_toWord (hlength ▸ h8)
  rwa [hlength, ← if_pos (c := start + width ≤ bs.length) (t := toWord _) (e := 0) h, ← wordAt_eq] at hword

/-- The words of a string side by side make up its start. -/
theorem flatMap_ofWord_wordAt {bs : Bytes} {width n : Nat} (h8 : width ≤ 8) (h : n * width ≤ bs.length) :
    ((List.range n).flatMap fun c => ofWord (bs.wordAt (c * width) width) width) = bs.take (n * width) := by
  induction n with
  | zero => rw [Nat.zero_mul]; rfl
  | succ n ih =>
      rw [Nat.succ_mul] at h ⊢
      rw [List.range_succ, List.flatMap_append, ih (by omega), List.flatMap_singleton, ofWord_wordAt h8 h,
        List.take_add]

/-- A word that a string holds stays when more bytes follow. -/
theorem wordAt_append_of_le {bs : Bytes} (rest : Bytes) {start width : Nat} (h : start + width ≤ bs.length) :
    wordAt (bs ++ rest) start width = wordAt bs start width := by
  rw [wordAt_eq, wordAt_eq, if_pos h, if_pos (by rw [List.length_append]; omega), List.drop_append_of_le_length
    (by omega), List.take_append_of_le_length (by rw [List.length_drop]; omega)]

end Bytes

/-- A value that is filled with the same components is the same. -/
theorem Value.fill_congr {v : Value} {n : Nat} {f g : Nat → UInt64} (h : ∀ c < n, f c = g c) :
    v.fill n f = v.fill n g := by
  refine congrArg Value.mk (Vector.ext fun c _ => ?_)
  rw [Vector.getElem_ofFn, Vector.getElem_ofFn]
  dsimp only
  split
  · next hc => exact h c hc
  · rfl

/-- A value that is filled with its own components stays. -/
theorem Value.fill_get (v : Value) (n : Nat) : v.fill n v.get = v := by
  refine congrArg Value.mk (Vector.ext fun c hc => ?_)
  rw [Vector.getElem_ofFn]
  dsimp only
  split
  · rw [get, Vector.getElem?_eq_getElem hc, Option.getD_some]
  · rfl

namespace Shape

mutual

/-- No leaf has more components than a value holds. -/
def isNarrow : Shape → Bool
  | .node _ rows columns members =>
    if members.isEmpty then rows.toNat * columns.toNat ≤ 16 else areNarrow members

/-- No leaf of several trees has more components than a value holds. -/
def areNarrow : List Shape → Bool
  | [] => true
  | s :: ss => s.isNarrow && areNarrow ss

end

end Shape

namespace Variable

instance (v : Variable) : Decidable v.IsBounded :=
  inferInstanceAs (Decidable (∀ x ∈ v.leaves, x.2.toNat < 2 ^ (8 * x.1.byteSize)))

/-! ## Components that are cut -/

/-- A component cut to the bytes of its element type. -/
def cutComp (x : ElemType × UInt64) : ElemType × UInt64 := (x.1, x.2 &&& mask (8 * x.1.byteSize))

mutual

/-- The variable with each component of its leaves cut to the bytes of its element type. -/
def cut : Variable → Variable
  | { name, elem, rows, columns, value, members, slot } =>
    if members.isEmpty then
      { name, elem, rows, columns, members, slot,
        value := value.fill (rows.toNat * columns.toNat) fun c => value.get c &&& mask (8 * elem.byteSize) }
    else { name, elem, rows, columns, value, slot, members := cutList members }

/-- Several variables that are cut. -/
def cutList : List Variable → List Variable
  | [] => []
  | v :: vs => v.cut :: cutList vs

end

theorem isEmpty_cutList (vs : List Variable) : (cutList vs).isEmpty = vs.isEmpty := by
  cases vs <;> rfl

mutual

theorem shape_cut : (v : Variable) → v.cut.shape = v.shape
  | { name, elem, rows, columns, value, members, slot } => by
    rw [cut]
    split
    · rfl
    · exact congrArg (Shape.node elem rows columns) (shapes_cutList members)

theorem shapes_cutList : (vs : List Variable) → shapes (cutList vs) = shapes vs
  | [] => rfl
  | v :: vs => by rw [cutList, shapes, shapes, shape_cut v, shapes_cutList vs]

end

mutual

/-- The leaves are those of the variable, each cut. -/
theorem leaves_cut : (v : Variable) → v.cut.leaves = v.leaves.map cutComp
  | { name, elem, rows, columns, value, members, slot } => by
    rw [cut]
    by_cases hmembers : members.isEmpty
    · rw [if_pos hmembers, leaves, leaves, if_pos hmembers, if_pos hmembers, List.map_map]
      refine List.map_congr_left fun c hc => congrArg (Prod.mk elem) ?_
      rw [Value.get_fill]
      split
      · rfl
      · next hge =>
          have hzero := Value.get_of_ge value (Nat.le_of_not_lt fun hlt => hge ⟨List.mem_range.1 hc, hlt⟩)
          show value.get c = value.get c &&& _
          rw [hzero, UInt64.zero_and]
    · rw [if_neg hmembers, leaves, leaves, isEmpty_cutList, if_neg hmembers, if_neg hmembers]
      exact leavesOf_cutList members

theorem leavesOf_cutList : (vs : List Variable) → leavesOf (cutList vs) = (leavesOf vs).map cutComp
  | [] => rfl
  | v :: vs => by rw [cutList, leavesOf, leavesOf, List.map_append, leaves_cut v, leavesOf_cutList vs]

end

/-- What is cut fits. -/
theorem isBounded_cut (v : Variable) : v.cut.IsBounded := by
  intro x hx
  rw [leaves_cut] at hx
  obtain ⟨y, -, rfl⟩ := List.mem_map.1 hx
  exact and_mask_lt ..

mutual

/-- A variable whose components fit stays. -/
theorem cut_of_isBounded : (v : Variable) → v.IsBounded → v.cut = v
  | { name, elem, rows, columns, value, members, slot }, h => by
    unfold IsBounded at h
    rw [leaves] at h
    rw [cut]
    by_cases hmembers : members.isEmpty
    · rw [if_pos hmembers] at h ⊢
      have hvalue : (value.fill (rows.toNat * columns.toNat) fun c => value.get c &&& mask (8 * elem.byteSize)) =
          value := by
        rw [Value.fill_congr (g := value.get) fun c hc => ?_]
        · exact value.fill_get _
        · exact UInt64.toNat_inj.1 ((toNat_and_mask ..).trans (Nat.mod_eq_of_lt
            (h _ (List.mem_map_of_mem (List.mem_range.2 hc)))))
      rw [hvalue]
    · rw [if_neg hmembers] at h ⊢
      rw [cutList_of_isBounded members h]

theorem cutList_of_isBounded : (vs : List Variable) → (∀ x ∈ leavesOf vs, x.2.toNat < 2 ^ (8 * x.1.byteSize)) →
    cutList vs = vs
  | [], _ => rfl
  | v :: vs, h => by
    rw [leavesOf] at h
    rw [cutList, cut_of_isBounded v fun x hx => h x (List.mem_append_left _ hx),
      cutList_of_isBounded vs fun x hx => h x (List.mem_append_right _ hx)]

end

/-- The bytes do not show what is cut away. -/
theorem toBytes_cut (v : Variable) : v.cut.toBytes = v.toBytes := by
  rw [toBytes_eq_flatMap, toBytes_eq_flatMap, leaves_cut, List.flatMap_map]
  refine List.flatMap_congr fun x _ => Bytes.ofWord_congr ?_
  exact (congrArg (· % _) (toNat_and_mask ..)).trans (Nat.mod_mod ..)

/-! ## From a variable to bytes and back -/

mutual

/-- A variable uses as many bytes as it has itself. -/
theorem used_refill : (v : Variable) → (bytes : Bytes) → (v.refill bytes).2 = v.toBytes.length
  | { name, elem, rows, columns, value, members, slot }, bytes => by
    rw [refill, toBytes]
    split
    · simp [List.length_flatMap, List.map_const']
    · exact used_refillList members bytes

theorem used_refillList : (vs : List Variable) → (bytes : Bytes) →
    (refillList vs bytes).2 = (listToBytes vs).length
  | [], _ => rfl
  | v :: vs, bytes => by
    rw [refillList, listToBytes, List.length_append, ← used_refill v bytes, ← used_refillList vs]

end

mutual

/-- The bytes behind those that are used do not count. -/
theorem refill_append : (v : Variable) → {bytes : Bytes} → (rest : Bytes) → v.toBytes.length ≤ bytes.length →
    v.refill (bytes ++ rest) = v.refill bytes
  | { name, elem, rows, columns, value, members, slot }, bytes, rest, h => by
    rw [← used_refill _ []] at h
    rw [refill] at h ⊢
    rw [refill]
    by_cases hmembers : members.isEmpty
    · rw [if_pos hmembers] at h ⊢
      rw [if_pos hmembers]
      dsimp only at h ⊢
      rw [Value.fill_congr fun c hc => Bytes.wordAt_append_of_le rest ?_]
      rw [← Nat.succ_mul]
      exact Nat.le_trans (Nat.mul_le_mul_right _ hc) h
    · rw [if_neg hmembers] at h ⊢
      rw [if_neg hmembers, refillList_append members rest ((used_refillList members []).symm ▸ h)]

theorem refillList_append : (vs : List Variable) → {bytes : Bytes} → (rest : Bytes) →
    (listToBytes vs).length ≤ bytes.length → refillList vs (bytes ++ rest) = refillList vs bytes
  | [], _, _, _ => rfl
  | v :: vs, bytes, rest, h => by
    rw [listToBytes, List.length_append] at h
    rw [refillList, refillList, refill_append v rest (by omega)]
    dsimp only
    have hused := used_refill v bytes
    rw [List.drop_append_of_le_length (by omega),
      refillList_append vs rest (by rw [List.length_drop]; omega)]

end

mutual

/-- A variable that reads its own bytes keeps what its element types hold. -/
theorem ofBytes_toBytes : (v : Variable) → (rest : Bytes) → v.ofBytes (v.toBytes ++ rest) = v.cut
  | { name, elem, rows, columns, value, members, slot }, rest => by
    rw [ofBytes, refill, toBytes, cut]
    by_cases hmembers : members.isEmpty
    · rw [if_pos hmembers, if_pos hmembers, if_pos hmembers]
      dsimp only
      have hwords : ((List.range (rows.toNat * columns.toNat)).flatMap fun c =>
            Bytes.ofWord (value.get c) elem.byteSize) =
          ((List.range (rows.toNat * columns.toNat)).map fun c =>
            value.get c &&& mask (8 * elem.byteSize)).flatMap fun w => Bytes.ofWord w elem.byteSize := by
        rw [List.flatMap_map]
        refine List.flatMap_congr fun c _ => (Bytes.ofWord_congr ?_).symm
        rw [toNat_and_mask, Nat.mod_mod]
      refine congrArg (Variable.mk name elem rows columns · members slot) (Value.fill_congr fun c hc => ?_)
      rw [hwords, Bytes.wordAt_flatMap_ofWord rest ?_ (by simpa using hc), List.getElem_map, List.getElem_range]
      intro w hw
      obtain ⟨c, -, rfl⟩ := List.mem_map.1 hw
      exact and_mask_lt ..
    · rw [if_neg hmembers, if_neg hmembers, if_neg hmembers]
      dsimp only
      rw [refillList_listToBytes members rest]

theorem refillList_listToBytes : (vs : List Variable) → (rest : Bytes) →
    (refillList vs (listToBytes vs ++ rest)).1 = cutList vs
  | [], _ => rfl
  | v :: vs, rest => by
    rw [refillList, listToBytes, List.append_assoc, cutList]
    dsimp only
    rw [used_refill, List.drop_left, refillList_listToBytes vs rest, ← ofBytes_toBytes v (listToBytes vs ++ rest),
      ofBytes]

end

/-! ## From bytes to a variable and back -/

mutual

/-- What a variable shows of the bytes that it has read. -/
theorem toBytes_refill : (v : Variable) → {bytes : Bytes} → v.shape.isNarrow → v.toBytes.length ≤ bytes.length →
    (v.refill bytes).1.toBytes = bytes.take v.toBytes.length
  | { name, elem, rows, columns, value, members, slot }, bytes, hnarrow, h => by
    rw [← used_refill _ []] at h ⊢
    rw [shape, Shape.isNarrow] at hnarrow
    rw [refill] at h ⊢
    rw [refill]
    by_cases hmembers : members.isEmpty
    · rw [if_pos hmembers] at h ⊢
      rw [if_pos hmembers, toBytes, if_pos hmembers]
      have hcount : rows.toNat * columns.toNat ≤ 16 := by
        rw [List.isEmpty_iff.1 hmembers] at hnarrow
        exact of_decide_eq_true hnarrow
      rw [← Bytes.flatMap_ofWord_wordAt elem.byteSize_le h]
      refine List.flatMap_congr fun c hc => ?_
      have hlt := List.mem_range.1 hc
      rw [Value.get_fill, if_pos ⟨hlt, Nat.lt_of_lt_of_le hlt hcount⟩]
    · rw [if_neg hmembers] at h ⊢
      rw [if_neg hmembers, toBytes, isEmpty_refillList, if_neg hmembers]
      have hshapes : ¬ (shapes members).isEmpty := by
        cases members <;> exact hmembers
      rw [if_neg hshapes] at hnarrow
      dsimp only at h ⊢
      rw [used_refillList] at h ⊢
      exact listToBytes_refillList members hnarrow h

theorem listToBytes_refillList : (vs : List Variable) → {bytes : Bytes} → Shape.areNarrow (shapes vs) →
    (listToBytes vs).length ≤ bytes.length →
    listToBytes (refillList vs bytes).1 = bytes.take (listToBytes vs).length
  | [], _, _, _ => rfl
  | v :: vs, bytes, hnarrow, h => by
    rw [shapes, Shape.areNarrow, Bool.and_eq_true] at hnarrow
    rw [listToBytes, List.length_append] at h ⊢
    rw [refillList, listToBytes]
    have hrest : (listToBytes vs).length ≤ (bytes.drop v.toBytes.length).length := by
      rw [List.length_drop]
      omega
    rw [used_refill, toBytes_refill v hnarrow.1 (by omega), listToBytes_refillList vs hnarrow.2 hrest, List.take_add]

end

theorem length_toBytes_of_shape {v w : Variable} (h : w.shape = v.shape) :
    w.toBytes.length = v.toBytes.length := by
  rw [← used_refill w (v.cut.toBytes ++ []), (leaves_refill_toBytes v.cut w [] (h.trans v.shape_cut.symm)
    v.isBounded_cut).2, toBytes_cut]

/-- The bytes of a variable, with any others behind them, are read into a variable of its shape exactly, and give
    its leaves, each component cut to the bytes of its element type; where all else is the same, they give the
    variable itself, if its components fit. Bytes of this length that are read into such a variable are its bytes
    then, if no leaf has more than sixteen components. -/
theorem flatten_unflatten {v w : Variable} (hshape : w.shape = v.shape) :
    (∀ rest : Bytes, w.refill (v.toBytes ++ rest) = w.refill v.toBytes ∧
      (w.refill (v.toBytes ++ rest)).2 = v.toBytes.length ∧
      (w.refill (v.toBytes ++ rest)).1.shape = v.shape ∧
      (w.refill (v.toBytes ++ rest)).1.leaves = v.leaves.map cutComp ∧
      (w.ofBytes [] = v.ofBytes [] → w.ofBytes (v.toBytes ++ rest) = v.cut)) ∧
    (v.IsBounded → v.cut = v ∧ v.leaves.map cutComp = v.leaves) ∧
    (v.shape.isNarrow → ∀ bytes : Bytes, bytes.length = v.toBytes.length →
      (w.refill bytes).2 = bytes.length ∧ (w.ofBytes bytes).toBytes = bytes) := by
  have hlength := length_toBytes_of_shape hshape
  refine ⟨fun rest => ⟨refill_append w rest (Nat.le_of_eq hlength), ?_, ?_, ?_, fun hw => ?_⟩,
    fun hv => ?_, fun hnarrow bytes hbytes => ?_⟩
  · rw [used_refill, hlength]
  · exact (hasType_refill w _).1.trans hshape
  · rw [← toBytes_cut, (leaves_refill_toBytes v.cut w rest (hshape.trans v.shape_cut.symm) v.isBounded_cut).1,
      leaves_cut]
  · rw [← ofBytes_ofBytes w [], hw, ofBytes_ofBytes, ofBytes_toBytes]
  · have hcut := cut_of_isBounded v hv
    exact ⟨hcut, by rw [← leaves_cut, hcut]⟩
  · rw [← hlength] at hbytes
    refine ⟨by rw [used_refill, hbytes], ?_⟩
    rw [ofBytes, toBytes_refill w (hshape ▸ hnarrow) (Nat.le_of_eq hbytes.symm), ← hbytes, List.take_length]

/-- A structure of a short and a pair of words. -/
def labelled (short : UInt64) (words : List UInt64) : Variable :=
  aggregate "s" [{ row "a" .sShort 1 with value := .ofList [short] }, ofWords "b" .uInt words]

/-- The bytes of a structure, with one behind them, are read into an empty one; the short is cut. -/
theorem flatten_unflatten_labelled :
    (labelled 0x51234 [0xaabbccdd, 1]).toBytes = [0x34, 0x12, 0xdd, 0xcc, 0xbb, 0xaa, 1, 0, 0, 0] ∧
      ((labelled 0 [0, 0]).refill ((labelled 0x51234 [0xaabbccdd, 1]).toBytes ++ [9])).2 = 10 ∧
      (labelled 0 [0, 0]).ofBytes ((labelled 0x51234 [0xaabbccdd, 1]).toBytes ++ [9]) =
        (labelled 0x51234 [0xaabbccdd, 1]).cut ∧
      (labelled 0x1234 [0xaabbccdd, 1]).cut = labelled 0x1234 [0xaabbccdd, 1] ∧
      ((labelled 0 [0, 0]).ofBytes [1, 2, 3, 4, 5, 6, 7, 8, 9, 10]).toBytes = [1, 2, 3, 4, 5, 6, 7, 8, 9, 10] := by
  have hshape : (labelled 0 [0, 0]).shape = (labelled 0x51234 [0xaabbccdd, 1]).shape := rfl
  obtain ⟨hread, -, hback⟩ := flatten_unflatten hshape
  obtain ⟨-, hused, -, -, hcut⟩ := hread [9]
  have hfits := (flatten_unflatten (v := labelled 0x1234 [0xaabbccdd, 1]) rfl).2.1 (by decide +kernel)
  exact ⟨by decide +kernel, hused, hcut rfl, hfits.1, (hback (by decide +kernel) _ (by decide +kernel)).2⟩

end Variable

end Lockstep
