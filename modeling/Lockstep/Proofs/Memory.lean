import Lockstep.Memory

set_option autoImplicit false

/-! # Allocations and writes

What an allocation adds to a memory, and what a write leaves alone: all pointers and all other
allocations (`Memory.write_ok`). -/

namespace Lockstep

/-- The bytes after a part has been overwritten. -/
theorem Bytes.getElem?_splice? {bs new out : Bytes} {start : Nat} (h : bs.splice? start new = some out)
    (k : Nat) : out[k]? = if start ≤ k ∧ k < start + new.length then new[k - start]? else bs[k]? := by
  unfold splice? at h
  split at h
  · next hle =>
      cases h
      have hstart : start ≤ bs.length := by omega
      rw [List.append_assoc, List.getElem?_append, List.length_take, Nat.min_eq_left hstart]
      by_cases hk : k < start
      · rw [if_pos hk, if_neg (by omega), List.getElem?_take_of_lt hk]
      · rw [if_neg hk, List.getElem?_append]
        by_cases hk' : k - start < new.length
        · rw [if_pos hk', if_pos (by omega)]
        · rw [if_neg hk', if_neg (by omega), List.getElem?_drop]
          exact congrArg (bs[·]?) (by omega)
  · cases h

/-- The end of what a pointer addresses, if it is not in front of it, has not wrapped around. -/
theorem Pointer.stop_eq {q : Pointer} (hsize : q.size < UInt64.size) (h : q.offset ≤ q.stop q.size) :
    q.stop q.size = q.offset + q.size := by
  unfold stop at h ⊢
  have hlt : (q.offset + q.size) % UInt64.size < UInt64.size := Nat.mod_lt _ (by decide)
  rcases Nat.lt_or_ge (q.offset + q.size) UInt64.size with hsum | hsum
  · exact Nat.mod_eq_of_lt hsum
  · have hmod : (q.offset + q.size) % UInt64.size = q.offset + q.size - UInt64.size :=
      (Nat.mod_eq_sub_mod hsum).trans (Nat.mod_eq_of_lt (by omega))
    omega

theorem Ty.byteSize_lt (ty : Ty) : ty.byteSize < UInt64.size := Nat.mod_lt _ (by decide)

namespace Memory

variable {m m' : Memory}

theorem allocation?_allocate (m : Memory) (id : Id) (pointee : Ty) (isGlobal : Bool) (base : Id) :
    (m.allocate id pointee isGlobal).allocation? base =
      if base = id then some { bytes := List.replicate pointee.byteSize 0, isGlobal }
      else m.allocation? base :=
  Table.get?_insert ..

theorem hasAllocation_allocate (m : Memory) (id : Id) (pointee : Ty) (isGlobal : Bool) (base : Id) :
    (m.allocate id pointee isGlobal).hasAllocation base = (base = id || m.hasAllocation base) := by
  rw [hasAllocation, allocation?_allocate]
  split
  · next h => simp [h]
  · next h => simp [h, hasAllocation]

theorem pointer?_allocate (m : Memory) (id : Id) (pointee : Ty) (isGlobal : Bool) (id' : Id) :
    (m.allocate id pointee isGlobal).pointer? id' =
      if id' = id then some { base := id, offset := 0, size := pointee.byteSize, pointee }
      else m.pointer? id' :=
  Table.get?_insert ..

theorem pointer?_addPointer (m : Memory) (id : Id) (q : Pointer) (id' : Id) :
    (m.addPointer id q).pointer? id' = if id' = id then some q else m.pointer? id' :=
  Table.get?_insert ..

theorem write_ok {q : Pointer} {bytes : Bytes} (h : m.write q bytes = .ok m') :
    m'.pointers = m.pointers ∧ (∀ base, m'.hasAllocation base = m.hasAllocation base) ∧
      ∀ base, base ≠ q.base → m'.allocation? base = m.allocation? base := by
  unfold write at h
  split at h
  · cases h
  · split at h
    · cases h
    · next a ha =>
        split at h
        · cases h
        · cases h
          refine ⟨rfl, fun base => ?_, fun base hbase => Table.get?_insert_of_ne _ hbase _⟩
          rw [hasAllocation, hasAllocation, allocation?, allocation?, Table.get?_insert]
          split
          · next hbase => rw [hbase, show m.allocations.get? q.base = some a from ha]; rfl
          · rfl

/-- What a write makes of the allocation. -/
theorem splice_of_write {q : Pointer} {bytes : Bytes} (h : m.write q bytes = .ok m') :
    bytes.length ≤ q.size ∧ ∃ a new, m.allocation? q.base = some a ∧
      a.bytes.splice? q.offset bytes = some new ∧ m'.allocation? q.base = some { a with bytes := new } := by
  unfold write at h
  split at h
  · cases h
  · next hle =>
      split at h
      · cases h
      · next a ha =>
          split at h
          · cases h
          · next new hnew =>
              cases h
              exact ⟨Nat.le_of_not_lt hle, a, new, ha, hnew, Table.get?_insert_self ..⟩

/-- What is read is the part of the allocation that the pointer addresses. -/
theorem read_ok {q : Pointer} {bytes : Bytes} (h : m.read q = .ok bytes) :
    ∃ a, m.allocation? q.base = some a ∧ a.bytes.slice? q.offset (q.stop q.size) = some bytes := by
  unfold read at h
  split at h
  · cases h
  · next a ha =>
      split at h
      · cases h
      · next bytes' hslice =>
          cases h
          exact ⟨a, ha, hslice⟩

theorem allocateFor_ok {ty : Ty} {id : Id} {isGlobal : Bool} {name : String} {r : Variable × Memory}
    (h : m.allocateFor ty id isGlobal name = .ok r) :
    ∃ pointee, ty.pointee? = some pointee ∧ r = (Variable.zeroed name pointee, m.allocate id pointee isGlobal) := by
  unfold allocateFor at h
  split at h
  · cases h
  · next pointee hpointee =>
      cases h
      exact ⟨pointee, hpointee, rfl⟩

theorem reload_ok {base : Id} {v w : Variable} (h : m.reload base v = .ok w) :
    ∃ a, m.allocation? base = some a ∧ w = v.ofBytes a.bytes := by
  unfold reload at h
  split at h
  · cases h
  · next a ha =>
      cases h
      exact ⟨a, ha, rfl⟩

end Memory

end Lockstep
