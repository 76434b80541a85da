import Lockstep.Proofs.Typing.Program
import Lockstep.Proofs.Typing.Value

set_option autoImplicit false

/-! # Parts of values

A vector, an array and a structure are laid out part by part. So the bytes of what a path of indices leads to are
a range of the bytes of the whole value, which begins after the parts that each index skips
(`Variable.slice?_at`). -/

namespace Lockstep

namespace Bytes

theorem slice?_append (before part rest : Bytes) :
    (before ++ part ++ rest).slice? before.length (before.length + part.length) = some part := by
  unfold slice?
  rw [if_pos ⟨Nat.le_add_right .., by simp⟩, Nat.add_sub_cancel_left, List.append_assoc, List.drop_left,
    List.take_left]

/-- A range of a range. -/
theorem slice?_slice? {bs part inner : Bytes} {start stop start' stop' : Nat}
    (h : bs.slice? start stop = some part) (h' : part.slice? start' stop' = some inner) :
    bs.slice? (start + start') (start + stop') = some inner := by
  unfold slice? at h h' ⊢
  split at h
  · next hle =>
      cases h
      split at h'
      · next hle' =>
          cases h'
          rw [List.length_take, List.length_drop] at hle'
          rw [if_pos (by omega), List.drop_take, List.drop_drop, List.take_take, Nat.add_sub_add_left,
            Nat.min_eq_left (by omega)]
      · cases h'
  · cases h

end Bytes

/-! ## Types -/

namespace Ty

/-- The types of the parts of a vector, an array or a structure. -/
def parts : Ty → List Ty
  | .vector elem count | .array elem count => List.replicate count elem
  | .struct _ members => members
  | _ => []

/-- The type at the end of a path of indices. -/
def at? : Ty → List Nat → Option Ty
  | ty, [] => some ty
  | ty, k :: path => ty.parts[k]?.bind (·.at? path)

/-- The number of bytes before what a path of indices leads to. -/
def startAt : Ty → List Nat → Nat
  | _, [] => 0
  | ty, k :: path => layoutSizes (ty.parts.take k) + ty.parts[k]?.elim 0 (·.startAt path)

/-- Numbers, short vectors of them, and arrays and structures of these. -/
inductive IsData : Ty → Prop
  | scalar {kind : ScalarKind} {bits : Nat} (hbits : bits ∈ kind.widths) : IsData (.scalar kind bits)
  | vector {kind : ScalarKind} {bits count : Nat} (hbits : bits ∈ kind.widths) (hcount : count ≤ 16) :
      IsData (.vector (.scalar kind bits) count)
  | array {elem : Ty} {count : Nat} (h : IsData elem) : IsData (.array elem count)
  | struct {name : String} {members : List Ty} (h : ∀ ty ∈ members, IsData ty) : IsData (.struct name members)

variable {ty part : Ty} {k : Nat} {path rest : List Nat}

theorem layoutSizes_append (ts us : List Ty) : layoutSizes (ts ++ us) = layoutSizes ts + layoutSizes us := by
  induction ts with
  | nil => rw [List.nil_append, layoutSizes, Nat.zero_add]
  | cons t ts ih => rw [List.cons_append, layoutSizes, layoutSizes, ih, Nat.add_assoc]

theorem layoutSizes_replicate (ty : Ty) (n : Nat) : layoutSizes (List.replicate n ty) = n * ty.layoutSize := by
  induction n with
  | zero => rw [List.replicate_zero, layoutSizes, Nat.zero_mul]
  | succ n ih => rw [List.replicate_succ, layoutSizes, ih, Nat.succ_mul, Nat.add_comm]

theorem layoutSizes_take_replicate {elem : Ty} {count : Nat} (hk : k < count) :
    layoutSizes ((List.replicate count elem).take k) = k * elem.layoutSize := by
  rw [List.take_replicate, Nat.min_eq_left (Nat.le_of_lt hk), layoutSizes_replicate]

theorem not_isScalar_of_part (h : part ∈ ty.parts) : ¬ ty.isScalar := by
  intro hscalar
  cases ty <;> first | (cases hscalar; done) | cases h

theorem IsData.layoutSizes_parts (h : ty.IsData) (hparts : ¬ ty.isScalar) :
    layoutSizes ty.parts = ty.layoutSize := by
  cases h with
  | scalar => exact absurd rfl hparts
  | vector =>
      rw [parts, layoutSizes_replicate, Nat.mul_comm]
      conv_rhs => rw [layoutSize]
  | array => rw [parts, layoutSizes_replicate, layoutSize, Nat.mul_comm]
  | struct => rw [parts, layoutSize]

/-- A part lies inside the whole. -/
theorem IsData.layoutSizes_take_le (hty : ty.IsData) (h : ty.parts[k]? = some part) :
    layoutSizes (ty.parts.take k) + part.layoutSize ≤ ty.layoutSize := by
  obtain ⟨hk, hpart⟩ := List.getElem?_eq_some_iff.1 h
  have hsplit : layoutSizes ty.parts = _ := congrArg layoutSizes (List.take_append_drop k ty.parts).symm
  rw [layoutSizes_append, List.drop_eq_getElem_cons hk, layoutSizes, hpart,
    hty.layoutSizes_parts (not_isScalar_of_part (List.mem_of_getElem? h))] at hsplit
  omega

theorem IsData.of_mem_parts (h : ty.IsData) (hpart : part ∈ ty.parts) : part.IsData := by
  cases h with
  | scalar => cases hpart
  | vector hbits => exact List.eq_of_mem_replicate hpart ▸ .scalar hbits
  | array helem => exact List.eq_of_mem_replicate hpart ▸ helem
  | struct hmembers => exact hmembers part hpart

/-- What holds of numbers, and of each type whose parts it holds of, holds of all data. -/
@[elab_as_elim]
theorem IsData.by_parts {motive : (ty : Ty) → ty.IsData → Prop}
    (scalar : ∀ {kind bits} (hbits : bits ∈ kind.widths), motive (.scalar kind bits) (.scalar hbits))
    (whole : ∀ {ty} (hty : ty.IsData), ¬ ty.isScalar → (∀ part ∈ ty.parts, ∀ h, motive part h) → motive ty hty) :
    (hty : ty.IsData) → motive ty hty := by
  intro hty
  induction hty with
  | scalar hbits => exact scalar hbits
  | vector hbits hcount =>
      refine whole (.vector hbits hcount) Bool.false_ne_true fun part hpart h => ?_
      obtain rfl := List.eq_of_mem_replicate hpart
      exact scalar hbits
  | array helem ih =>
      refine whole (.array helem) Bool.false_ne_true fun part hpart h => ?_
      obtain rfl := List.eq_of_mem_replicate hpart
      exact ih
  | struct hmembers ih => exact whole (.struct hmembers) Bool.false_ne_true fun part hpart _ => ih part hpart

/-- What a path leads to lies inside the whole. -/
theorem IsData.startAt_add_le (h : ty.IsData) (hpath : ty.at? path = some part) :
    ty.startAt path + part.layoutSize ≤ ty.layoutSize := by
  induction path generalizing ty with
  | nil =>
      cases hpath
      exact Nat.le_of_eq (Nat.zero_add _)
  | cons k path ih =>
      obtain ⟨inner, hinner, hrest⟩ := Option.bind_eq_some_iff.1 hpath
      have hle := ih (h.of_mem_parts (List.mem_of_getElem? hinner)) hrest
      have hskip := h.layoutSizes_take_le hinner
      rw [startAt, hinner, Option.elim_some]
      omega

theorem at?_append (h : ty.at? path = some part) : ty.at? (path ++ rest) = part.at? rest := by
  induction path generalizing ty with
  | nil =>
      cases h
      rfl
  | cons k path ih =>
      obtain ⟨inner, hinner, hrest⟩ := Option.bind_eq_some_iff.1 h
      rw [List.cons_append, at?, hinner]
      exact ih hrest

/-- A path that goes on begins where its first stretch leads. -/
theorem startAt_append (h : ty.at? path = some part) :
    ty.startAt (path ++ rest) = ty.startAt path + part.startAt rest := by
  induction path generalizing ty with
  | nil =>
      cases h
      exact (Nat.zero_add _).symm
  | cons k path ih =>
      obtain ⟨inner, hinner, hrest⟩ := Option.bind_eq_some_iff.1 h
      rw [List.cons_append, startAt, startAt, hinner, Option.elim_some, Option.elim_some, ih hrest, Nat.add_assoc]

theorem byteSize_of_lt (h : ty.layoutSize < 2 ^ 63) : ty.byteSize = ty.layoutSize :=
  Nat.mod_eq_of_lt (Nat.lt_trans h (by decide))

theorem foldl_byteSize {ts : List Ty} {n : Nat} (h : n + layoutSizes ts < 2 ^ 63) :
    ts.foldl (fun n t => n + t.byteSize) n = n + layoutSizes ts := by
  induction ts generalizing n with
  | nil => rw [List.foldl_nil, layoutSizes, Nat.add_zero]
  | cons t ts ih =>
      rw [layoutSizes] at h ⊢
      rw [List.foldl_cons, byteSize_of_lt (by omega), ih (by omega), Nat.add_assoc]

end Ty

theorem ScalarKind.byteSize_elem {kind : ScalarKind} {bits : Nat} (h : bits ∈ kind.widths) :
    (Ty.scalar kind bits).elem.byteSize = (Ty.scalar kind bits).layoutSize := by
  rw [Ty.layoutSize]
  cases kind <;> simp only [widths, List.mem_cons, List.not_mem_nil, or_false] at h
  · rcases h with rfl | rfl | rfl | rfl | rfl <;> rfl
  · rcases h with rfl | rfl | rfl <;> rfl

/-! ## Values -/

namespace Variable

/-- A component as a value of its own. -/
def component (v : Variable) (c : Nat) : Variable := { row v.name v.elem 1 with value := Value.zero.set 0 (v.get c) }

/-- The members of a value, or else its components. -/
def parts (v : Variable) : List Variable :=
  if v.members.isEmpty then (List.range v.compCount).map v.component else v.members

/-- The value at the end of a path of indices. -/
def at? : Variable → List Nat → Option Variable
  | v, [] => some v
  | v, k :: path => v.parts[k]?.bind (·.at? path)

/-- A value has the members, element types, rows and columns of a type's zero. -/
def Shaped (v : Variable) (ty : Ty) : Prop := v.shape = (zeroed "" ty).shape

variable {v w : Variable} {ty part : Ty} {k : Nat} {path : List Nat}

theorem listToBytes_append (vs ws : List Variable) : listToBytes (vs ++ ws) = listToBytes vs ++ listToBytes ws := by
  induction vs with
  | nil => rfl
  | cons v vs ih => rw [List.cons_append, listToBytes, listToBytes, ih, List.append_assoc]

theorem toBytes_component (v : Variable) (c : Nat) :
    (v.component c).toBytes = Bytes.ofWord (v.get c) v.elem.byteSize := by
  rw [component, row, toBytes]
  show List.flatMap _ [0] = _
  rw [List.flatMap_singleton, Value.get_set_self _ (by decide)]

/-- The bytes of a value are those of its parts, one after another. -/
theorem toBytes_eq_parts (v : Variable) : v.toBytes = listToBytes v.parts := by
  have hcomponents : ∀ cs : List Nat, (cs.flatMap fun c => Bytes.ofWord (v.get c) v.elem.byteSize) =
      listToBytes (cs.map v.component) := by
    intro cs
    induction cs with
    | nil => rfl
    | cons c cs ih => rw [List.flatMap_cons, List.map_cons, listToBytes, toBytes_component, ih]
  obtain ⟨name, elem, rows, columns, value, members, slot⟩ := v
  rw [toBytes, parts]
  split
  · exact hcomponents _
  · rfl

theorem parts_eq_members (h : v.members = [] → v.compCount = 0) : v.parts = v.members := by
  unfold parts
  split
  · next hempty =>
      have hmembers := List.isEmpty_iff.1 hempty
      rw [h hmembers, hmembers]
      rfl
  · rfl

/-- The bytes of a part are a range of the bytes of the whole. -/
theorem slice?_part (h : v.parts[k]? = some w) {start : Nat}
    (hstart : (listToBytes (v.parts.take k)).length = start) :
    v.toBytes.slice? start (start + w.toBytes.length) = some w.toBytes := by
  obtain ⟨hk, hw⟩ := List.getElem?_eq_some_iff.1 h
  have hsplit : v.toBytes =
      listToBytes (v.parts.take k) ++ w.toBytes ++ listToBytes (v.parts.drop (k + 1)) := by
    conv_lhs => rw [toBytes_eq_parts, ← List.take_append_drop k v.parts]
    rw [List.drop_eq_getElem_cons hk, listToBytes_append, listToBytes, hw, List.append_assoc]
  rw [hsplit, ← hstart]
  exact Bytes.slice?_append ..

namespace Shaped

/-- The parts of a value have the shapes of the parts of its type. -/
theorem shapes_parts (h : v.Shaped ty) (hty : ty.IsData) (hparts : ¬ ty.isScalar) :
    v.parts.map shape = ty.parts.map fun part => (zeroed "" part).shape := by
  unfold Shaped at h
  cases hty with
  | scalar => exact absurd rfl hparts
  | @vector kind bits count _ hcount =>
      rw [zeroed, shape_eq, shape_eq] at h
      obtain ⟨helem, hrows, hcolumns, hmembers⟩ := Shape.node.inj h
      have hcomps : v.compCount = count := by
        unfold compCount
        rw [hrows, hcolumns]
        exact (Nat.one_mul _).trans (Nat.mod_eq_of_lt (Nat.lt_of_le_of_lt hcount (by decide)))
      rw [parts, if_pos (List.isEmpty_iff.2 (eq_nil_of_shapes hmembers)), hcomps, List.map_map, Ty.parts,
        List.map_replicate]
      refine List.eq_replicate_iff.2 ⟨by simp, fun x hx => ?_⟩
      obtain ⟨c, -, rfl⟩ := List.mem_map.1 hx
      rw [zeroed]
      exact congrArg (Shape.node · 1 1 []) helem
  | @array elem count _ =>
      rw [zeroed, shape_eq, shape_eq] at h
      obtain ⟨-, hrows, -, hmembers⟩ := Shape.node.inj h
      have hshapes : v.members.map shape = List.replicate count (zeroed "" elem).shape := by
        rw [← shapes_eq_map, hmembers, shapes_eq_map, List.map_map]
        refine List.eq_replicate_iff.2 ⟨by simp, fun x hx => ?_⟩
        obtain ⟨i, -, rfl⟩ := List.mem_map.1 hx
        exact shape_zeroed elem _ _
      rw [parts_eq_members, hshapes, Ty.parts, List.map_replicate]
      intro hempty
      rw [hempty] at hshapes
      obtain rfl : count = 0 := (List.replicate_eq_nil_iff ..).1 hshapes.symm
      rw [compCount, hrows]
      exact Nat.zero_mul _
  | @struct name members _ =>
      rw [zeroed, shape_eq, shape_eq] at h
      obtain ⟨-, hrows, -, hmembers⟩ := Shape.node.inj h
      rw [parts_eq_members, ← shapes_eq_map, hmembers]
      · exact shapes_zeroedFields members 0
      · intro _
        rw [compCount, hrows]
        exact Nat.zero_mul _

theorem exists_part (h : v.Shaped ty) (hty : ty.IsData) (hpart : ty.parts[k]? = some part) :
    ∃ w, v.parts[k]? = some w ∧ w.Shaped part := by
  have hk := congrArg (·[k]?) (h.shapes_parts hty (Ty.not_isScalar_of_part (List.mem_of_getElem? hpart)))
  simp only [List.getElem?_map, hpart] at hk
  obtain ⟨w, hw, hshape⟩ := Option.map_eq_some_iff.1 hk
  exact ⟨w, hw, hshape⟩

end Shaped

theorem length_listToBytes {vs : List Variable} {ts : List Ty}
    (h : vs.map shape = ts.map fun ty => (zeroed "" ty).shape)
    (hts : ∀ ty ∈ ts, ∀ w : Variable, w.Shaped ty → w.toBytes.length = ty.layoutSize) :
    (listToBytes vs).length = Ty.layoutSizes ts := by
  induction ts generalizing vs with
  | nil =>
      obtain rfl := List.map_eq_nil_iff.1 h
      rw [listToBytes, Ty.layoutSizes]
      rfl
  | cons ty ts ih =>
      cases vs with
      | nil => cases h
      | cons v vs =>
          rw [List.map_cons, List.map_cons] at h
          obtain ⟨hv, hvs⟩ := List.cons.inj h
          rw [listToBytes, Ty.layoutSizes, List.length_append, hts ty List.mem_cons_self v hv,
            ih hvs fun ty hty => hts ty (List.mem_cons_of_mem _ hty)]

namespace Shaped

/-- A value takes as many bytes as its type says. -/
theorem length_toBytes (hty : ty.IsData) (h : v.Shaped ty) : v.toBytes.length = ty.layoutSize := by
  induction hty using Ty.IsData.by_parts generalizing v with
  | scalar hbits =>
      unfold Shaped at h
      rw [zeroed, shape_eq, shape_eq] at h
      obtain ⟨helem, hrows, hcolumns, hmembers⟩ := Shape.node.inj h
      rw [toBytes_eq_parts, parts, if_pos (List.isEmpty_iff.2 (eq_nil_of_shapes hmembers)), compCount, hrows,
        hcolumns]
      show (listToBytes [v.component 0]).length = _
      rw [listToBytes, listToBytes, List.append_nil, toBytes_component, Bytes.length_ofWord, helem]
      exact ScalarKind.byteSize_elem hbits
  | whole hty hscalar ih =>
      rw [toBytes_eq_parts, ← hty.layoutSizes_parts hscalar]
      exact length_listToBytes (h.shapes_parts hty hscalar) fun part hpart _ hw =>
        ih part hpart (hty.of_mem_parts hpart) hw

/-- The parts before one take as many bytes as their types say. -/
theorem length_take_parts (hty : ty.IsData) (h : v.Shaped ty) (hscalar : ¬ ty.isScalar) (k : Nat) :
    (listToBytes (v.parts.take k)).length = Ty.layoutSizes (ty.parts.take k) := by
  refine length_listToBytes ?_ fun part hpart w hw => ?_
  · rw [List.map_take, List.map_take, h.shapes_parts hty hscalar]
  · exact hw.length_toBytes (hty.of_mem_parts (List.mem_of_mem_take hpart))

end Shaped

/-- The bytes of what a path leads to are a range of the bytes of the whole. -/
theorem slice?_at (hty : ty.IsData) (h : v.Shaped ty) (hpath : ty.at? path = some part) :
    ∃ w, v.at? path = some w ∧ w.Shaped part ∧
      v.toBytes.slice? (ty.startAt path) (ty.startAt path + part.layoutSize) = some w.toBytes := by
  induction path generalizing ty v with
  | nil =>
      cases hpath
      refine ⟨v, rfl, h, ?_⟩
      have hwhole := Bytes.slice?_append [] v.toBytes []
      simp only [List.nil_append, List.append_nil, List.length_nil, h.length_toBytes hty] at hwhole
      exact hwhole
  | cons k path ih =>
      obtain ⟨inner, hinner, hrest⟩ := Option.bind_eq_some_iff.1 hpath
      have hdata := hty.of_mem_parts (List.mem_of_getElem? hinner)
      obtain ⟨u, hu, hshaped⟩ := h.exists_part hty hinner
      obtain ⟨w, hw, hwpart, hslice⟩ := ih hdata hshaped hrest
      have hscalar := Ty.not_isScalar_of_part (List.mem_of_getElem? hinner)
      have houter := slice?_part hu (h.length_take_parts hty hscalar k)
      refine ⟨w, ?_, hwpart, ?_⟩
      · rw [at?, hu]
        exact hw
      · rw [Ty.startAt, hinner, Nat.add_assoc]
        exact Bytes.slice?_slice? houter hslice

end Variable

end Lockstep
