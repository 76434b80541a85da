import Lockstep.Layout

set_option autoImplicit false

/-! # Variables that show bytes

A variable shows bytes if it has their content already, in its own shape. What is read from bytes shows
them (`Variable.shows_ofBytes`), and the zero of a type shows zeros (`Variable.shows_zeroed`). -/

namespace Lockstep

namespace Value

/-- What is filled twice has the components that it was filled with last. -/
theorem fill_fill (v : Value) (n : Nat) (f g : Nat → UInt64) : (v.fill n f).fill n g = v.fill n g := by
  refine congrArg Value.mk (Vector.ext fun i hi => ?_)
  simp only [fill, Vector.getElem_ofFn, Fin.getElem_fin]
  split
  · rfl
  · rfl

theorem zero_fill {n : Nat} {f : Nat → UInt64} (h : ∀ c, f c = 0) : zero.fill n f = zero := by
  refine congrArg Value.mk (Vector.ext fun i hi => ?_)
  simp [zero, h]

end Value

namespace Bytes

/-- A string of zeros. -/
def IsZero (bs : Bytes) : Prop := ∀ b ∈ bs, b = 0

variable {bs : Bytes}

theorem IsZero.drop (h : bs.IsZero) (n : Nat) : IsZero (bs.drop n) :=
  fun b hb => h b (List.mem_of_mem_drop hb)

theorem IsZero.toWord (h : bs.IsZero) : bs.toWord = 0 := by
  induction bs with
  | nil => rfl
  | cons b rest ih =>
      rw [Bytes.toWord, h b List.mem_cons_self, ih fun b hb => h b (List.mem_cons_of_mem _ hb)]
      rfl

theorem IsZero.wordAt (h : bs.IsZero) (start width : Nat) : bs.wordAt start width = 0 := by
  unfold Bytes.wordAt slice?
  split
  · exact IsZero.toWord fun b hb => h b (List.mem_of_mem_drop (List.mem_of_mem_take hb))
  · rfl

end Bytes

namespace Variable

variable {v : Variable} {vs : List Variable} {bytes : Bytes}

/-- A variable has the content of some bytes. -/
def Shows (v : Variable) (bytes : Bytes) : Prop := v.ofBytes bytes = v

theorem isEmpty_refillList (vs : List Variable) (bytes : Bytes) :
    (refillList vs bytes).1.isEmpty = vs.isEmpty := by
  cases vs <;> rfl

mutual

/-- What reads bytes twice has the content that it read last. -/
theorem refill_refill : (v : Variable) → (bytes bytes' : Bytes) →
    (v.refill bytes).1.refill bytes' = v.refill bytes'
  | { name, elem, rows, columns, value, members, slot }, bytes, bytes' => by
    rw [refill, refill]
    by_cases hmembers : members.isEmpty
    · rw [if_pos hmembers, if_pos hmembers]
      dsimp only
      rw [refill, if_pos hmembers]
      dsimp only
      rw [Value.fill_fill]
    · rw [if_neg hmembers, if_neg hmembers]
      dsimp only
      rw [refill, isEmpty_refillList, if_neg hmembers, refillList_refillList]

theorem refillList_refillList : (vs : List Variable) → (bytes bytes' : Bytes) →
    refillList (refillList vs bytes).1 bytes' = refillList vs bytes'
  | [], _, _ => rfl
  | v :: vs, bytes, bytes' => by
    rw [refillList, refillList]
    dsimp only
    rw [refillList, refill_refill]
    dsimp only
    rw [refillList_refillList]

end

/-- Only what is read last counts. -/
theorem ofBytes_ofBytes (v : Variable) (bytes bytes' : Bytes) :
    (v.ofBytes bytes).ofBytes bytes' = v.ofBytes bytes' :=
  congrArg Prod.fst (refill_refill v bytes bytes')

theorem shows_ofBytes (v : Variable) (bytes : Bytes) : (v.ofBytes bytes).Shows bytes :=
  ofBytes_ofBytes v bytes bytes

/-! ## Zeros -/

/-- Members that show zeros show them one after another. -/
theorem refillList_of_zeros (hvs : ∀ v ∈ vs, ∀ bytes : Bytes, bytes.IsZero → v.Shows bytes)
    (hbytes : bytes.IsZero) : (refillList vs bytes).1 = vs := by
  induction vs generalizing bytes with
  | nil => rfl
  | cons v vs ih =>
      rw [refillList]
      have hv : (v.refill bytes).1 = v := hvs v List.mem_cons_self bytes hbytes
      have hrest := ih (fun w hw => hvs w (List.mem_cons_of_mem _ hw)) (hbytes.drop (v.refill bytes).2)
      dsimp only
      rw [hv, hrest]

/-- A variable shows zeros if its components are zero and its members show zeros. -/
theorem shows_of_zeros (hvalue : v.value = .zero)
    (hmembers : ∀ w ∈ v.members, ∀ bytes : Bytes, bytes.IsZero → w.Shows bytes)
    (hbytes : bytes.IsZero) : v.Shows bytes := by
  obtain ⟨name, elem, rows, columns, value, members, slot⟩ := v
  subst hvalue
  unfold Shows ofBytes
  rw [refill]
  split
  · dsimp only
    rw [Value.zero_fill fun c => hbytes.wordAt ..]
  · dsimp only
    rw [refillList_of_zeros hmembers hbytes]

mutual

/-- The zero of a type shows zeros. -/
theorem shows_zeroed : (ty : Ty) → (name : String) → ∀ bytes : Bytes, bytes.IsZero →
    (zeroed name ty).Shows bytes
  | .pointer pointee _, name, bytes, h => by
    rw [zeroed]
    exact shows_zeroed pointee name bytes h
  | .struct _ members, name, bytes, h => by
    rw [zeroed]
    exact shows_of_zeros rfl (shows_zeroedFields members 0) h
  | .array elem count, name, bytes, h => by
    rw [zeroed]
    refine shows_of_zeros rfl (fun v hv => ?_) h
    obtain ⟨i, -, rfl⟩ := List.mem_map.1 hv
    exact shows_zeroed elem _
  | .vector _ _, _, _, h => by
    rw [zeroed]
    exact shows_of_zeros rfl (fun _ hv => nomatch hv) h
  | .handle, _, _, h | .void, _, _, h | .label, _, _, h | .scalar _ _, _, _, h => by
    rw [zeroed]
    exact shows_of_zeros rfl (fun _ hv => nomatch hv) h

theorem shows_zeroedFields : (members : List Ty) → (i : Nat) → ∀ v ∈ zeroedFields i members,
    ∀ bytes : Bytes, bytes.IsZero → v.Shows bytes
  | [], _, _, hv => nomatch hv
  | ty :: rest, i, v, hv => by
    rw [zeroedFields] at hv
    rcases List.mem_cons.1 hv with rfl | hv
    · exact shows_zeroed ty _
    · exact shows_zeroedFields rest _ v hv

end

end Variable

end Lockstep
