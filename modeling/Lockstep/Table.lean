set_option autoImplicit false

/-! # Small finite maps

A `Table κ ν` is a list of pairs in which each key occurs once; the order of the pairs is the order
in which the keys were first inserted. The debugger's tables (memory of a lane, cached resources,
builtin values) hold a few dozen entries, so look-up is a search, and the two laws of `insert` are
all that a reader of a table needs. -/

namespace Lockstep

/-- A finite map, kept as pairs in order of first insertion. -/
structure Table (κ ν : Type) where
  entries : List (κ × ν)

namespace Table

variable {κ ν : Type} [DecidableEq κ]

/-- The table without entries. -/
def empty : Table κ ν := ⟨[]⟩

instance : Inhabited (Table κ ν) := ⟨empty⟩
instance : EmptyCollection (Table κ ν) := ⟨empty⟩

/-- Look a key up in a list of pairs; the first pair with that key counts. -/
def lookup (k : κ) : List (κ × ν) → Option ν
  | [] => none
  | (k', v) :: rest => if k' = k then some v else lookup k rest

/-- The value of a key, if it has one. -/
def get? (t : Table κ ν) (k : κ) : Option ν := lookup k t.entries

/-- Replace the value of the first pair with that key, or append a new pair. -/
def put (k : κ) (v : ν) : List (κ × ν) → List (κ × ν)
  | [] => [(k, v)]
  | (k', v') :: rest => if k' = k then (k, v) :: rest else (k', v') :: put k v rest

/-- Give a key a value, in place of the one it had. -/
def insert (t : Table κ ν) (k : κ) (v : ν) : Table κ ν := ⟨put k v t.entries⟩

/-- Whether a key has a value. -/
def contains (t : Table κ ν) (k : κ) : Bool := (t.get? k).isSome

/-- The number of keys. -/
def size (t : Table κ ν) : Nat := t.entries.length

/-- A table of given pairs; a later pair replaces an earlier one with the same key. -/
def ofList (pairs : List (κ × ν)) : Table κ ν := pairs.foldl (fun t p => t.insert p.1 p.2) empty

@[simp] theorem get?_empty (k : κ) : (empty : Table κ ν).get? k = none := rfl

theorem lookup_put_self (k : κ) (v : ν) (ps : List (κ × ν)) : lookup k (put k v ps) = some v := by
  induction ps with
  | nil => simp [put, lookup]
  | cons p rest ih =>
    by_cases h : p.1 = k
    · simp [put, lookup, h]
    · simp [put, lookup, h, ih]

theorem lookup_put_of_ne {k k' : κ} (h : k' ≠ k) (v : ν) (ps : List (κ × ν)) :
    lookup k' (put k v ps) = lookup k' ps := by
  induction ps with
  | nil => simp [put, lookup, h.symm]
  | cons p rest ih =>
    by_cases hp : p.1 = k
    · simp [put, lookup, hp, h.symm]
    · by_cases hp' : p.1 = k' <;> simp_all [put, lookup]

/-- What was just inserted is found. -/
@[simp] theorem get?_insert_self (t : Table κ ν) (k : κ) (v : ν) : (t.insert k v).get? k = some v :=
  lookup_put_self k v t.entries

/-- An insertion leaves the other keys alone. -/
theorem get?_insert_of_ne (t : Table κ ν) {k k' : κ} (h : k' ≠ k) (v : ν) :
    (t.insert k v).get? k' = t.get? k' :=
  lookup_put_of_ne h v t.entries

/-- The look-up after an insertion, by cases on the key. -/
theorem get?_insert (t : Table κ ν) (k k' : κ) (v : ν) :
    (t.insert k v).get? k' = if k' = k then some v else t.get? k' := by
  by_cases h : k' = k
  · subst h; simp
  · simp [h, get?_insert_of_ne t h v]

/-- A table of given pairs has no others. -/
theorem mem_of_get?_ofList {pairs : List (κ × ν)} {k : κ} {v : ν} (h : (ofList pairs).get? k = some v) :
    (k, v) ∈ pairs := by
  have hfold : ∀ (pairs : List (κ × ν)) (t : Table κ ν),
      (pairs.foldl (fun t p => t.insert p.1 p.2) t).get? k = some v → t.get? k = some v ∨ (k, v) ∈ pairs := by
    intro pairs
    induction pairs with
    | nil => exact fun t h => .inl h
    | cons p pairs ih =>
      intro t h
      rcases ih (t.insert p.1 p.2) h with h | h
      · rw [get?_insert] at h
        split at h
        · next heq =>
          cases h
          exact .inr (heq ▸ List.mem_cons_self)
        · exact .inl h
      · exact .inr (List.mem_cons_of_mem _ h)
  exact (hfold pairs empty h).resolve_left fun hnone => nomatch hnone

/-- Every key of the given pairs has a value. -/
theorem isSome_get?_ofList {pairs : List (κ × ν)} {k : κ} {v : ν} (h : (k, v) ∈ pairs) :
    ((ofList pairs).get? k).isSome := by
  have hfold : ∀ (pairs : List (κ × ν)) (t : Table κ ν), (t.get? k).isSome ∨ (k, v) ∈ pairs →
      ((pairs.foldl (fun t p => t.insert p.1 p.2) t).get? k).isSome := by
    intro pairs
    induction pairs with
    | nil => exact fun t h => h.resolve_right List.not_mem_nil
    | cons p pairs ih =>
      intro t h
      refine ih (t.insert p.1 p.2) ?_
      rw [get?_insert]
      split
      · exact .inl rfl
      · next hne =>
        refine h.imp_right fun hmem => (List.mem_cons.1 hmem).resolve_left ?_
        rintro rfl
        exact hne rfl
  exact hfold pairs empty (.inr h)

end Table

end Lockstep
