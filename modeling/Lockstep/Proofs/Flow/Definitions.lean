import Lockstep.Proofs.Exec.Results
import Lockstep.Proofs.Flow.Names
import Lockstep.Proofs.Flow.Paths

set_option autoImplicit false

/-! # Definitions before uses

In a function in static single assignment form, a definition comes before its uses: it dominates them
strictly, and for a phi node it dominates the end of the block that control comes from
(`Function.DefinesBeforeUse`). What is defined before an instruction is defined before the one that control
got there from, or by that one (`Function.Available.of_succ`, `Function.Available.of_start`). So it is
enough for a run to keep what is defined before the place where it is. -/

namespace Lockstep

namespace Function

/-- Every walk from the entry to the block `c` passes the block `b`. -/
def Dominates (f : Function) (b c : Nat) : Prop := ∀ path, Walk f.Linked 0 path c → b ∈ path

/-- The instruction at a position has a value, and this identifier is its result. -/
def Defines (f : Function) (n : Nat) (id : Id) : Prop :=
  ∃ i, f.instrs[n]? = some i ∧ i.produces ∧ i.result = some id

instance (f : Function) (n : Nat) (id : Id) : Decidable (f.Defines n id) :=
  inferInstanceAs (Decidable (∃ _, _ ∧ _))

/-- The position `n` strictly dominates the position `m`. -/
structure Precedes (f : Function) (n m : Nat) : Prop where
  dominates : f.Dominates (f.blockOf n) (f.blockOf m)
  lt : f.blockOf n = f.blockOf m → n < m

/-- What may be read at a position: what is given from the start, and what is defined before. -/
def Available (f : Function) (given : Id → Prop) (m : Nat) (id : Id) : Prop :=
  given id ∨ ∃ n, f.Defines n id ∧ f.Precedes n m

/-- What may be read at the end of a block. -/
def AvailableAtEnd (f : Function) (given : Id → Prop) (b : Nat) (id : Id) : Prop :=
  given id ∨ ∃ n, f.Defines n id ∧ f.Dominates (f.blockOf n) b

/-- What an instruction reads is given or defined before, and what a phi node reads for a block is given or
    defined before the end of that block. -/
structure DefinesBeforeUse (f : Function) (given : Id → Prop) : Prop where
  operand : ∀ {m : Nat} {i : Instr} {id : Id}, f.instrs[m]? = some i → i.op ≠ .phi → .ref id ∈ i.args →
    f.Available given m id
  phi : ∀ {m : Nat} {i : Instr} {b : Nat} {id : Id}, f.instrs[m]? = some i → i.op = .phi →
    Lane.phiOperand b i.args = .ok (some (.ref id)) → f.AvailableAtEnd given b id

end Function

namespace Function

variable {f : Function} {given : Id → Prop} {n m : Nat} {i : Instr} {id : Id}

/-! ## Ways to a position -/

/-- What dominates a block and is another dominates the blocks that lead to it. -/
theorem Dominates.of_link {b c d : Nat} (h : f.Dominates d c) (hlink : f.Linked b c) (hne : d ≠ c) :
    f.Dominates d b := by
  intro path hpath
  rcases List.mem_append.1 (h _ (hpath.snoc hlink)) with hd | hd
  · exact hd
  · exact absurd (List.mem_singleton.1 hd) hne

/-- What comes before an instruction in its block precedes it. -/
theorem Precedes.of_lt (hblock : f.blockOf n = f.blockOf m) (hlt : n < m) : f.Precedes n m :=
  ⟨fun _ hpath => hblock ▸ hpath.end_mem, fun _ => hlt⟩

/-- Nothing comes before the first instruction. -/
theorem not_precedes_zero (n : Nat) : ¬ f.Precedes n 0 := by
  intro h
  have hzero : f.blockOf 0 = 0 := rfl
  have hmem := h.dominates [0] (hzero ▸ .nil)
  exact absurd (h.lt (List.mem_singleton.1 hmem)) (Nat.not_lt_zero n)

/-- What comes before the next instruction of the block is this one, or comes before it. -/
theorem Precedes.of_succ (h : f.Precedes n (m + 1)) (hi : f.instrs[m]? = some i) (ht : ¬ i.isTerminator) :
    n = m ∨ f.Precedes n m := by
  have hblock : f.blockOf (m + 1) = f.blockOf m := by
    rw [blockOf_succ hi, if_neg ht, Nat.add_zero]
  obtain ⟨hdominates, hlt⟩ := h
  rw [hblock] at hdominates hlt
  by_cases heq : n = m
  · exact .inl heq
  · exact .inr ⟨hdominates, fun hsame => by have := hlt hsame; omega⟩

/-- A definition that dominates the end of a block comes before its last instruction. -/
theorem Defines.precedes_of_dominates (hn : f.Defines n id) (hi : f.instrs[m]? = some i)
    (ht : i.isTerminator) (h : f.Dominates (f.blockOf n) (f.blockOf m)) : f.Precedes n m := by
  refine ⟨h, fun hsame => ?_⟩
  obtain ⟨j, hj, hproduces, -⟩ := hn
  rcases Nat.lt_trichotomy n m with hlt | rfl | hgt
  · exact hlt
  · rw [hi] at hj
    cases hj
    exact absurd hproduces (Instr.not_produces_of_isTerminator ht)
  · have hblock := blockOf_lt_of_terminator hi ht hgt
    omega

/-! ## What may be read -/

theorem Available.imp {given' : Id → Prop} (h : f.Available given m id) (hg : ∀ id, given id → given' id) :
    f.Available given' m id :=
  h.imp_left (hg id)

theorem AvailableAtEnd.imp {given' : Id → Prop} {b : Nat} (h : f.AvailableAtEnd given b id)
    (hg : ∀ id, given id → given' id) : f.AvailableAtEnd given' b id :=
  h.imp_left (hg id)

/-- More may be given. -/
theorem DefinesBeforeUse.imp {given' : Id → Prop} (h : f.DefinesBeforeUse given)
    (hg : ∀ id, given id → given' id) : f.DefinesBeforeUse given' :=
  ⟨fun hi hop hid => (h.operand hi hop hid).imp hg, fun hi hop hid => (h.phi hi hop hid).imp hg⟩

/-- Without phi nodes it is enough that what an instruction reads is defined before it in its block. -/
theorem DefinesBeforeUse.of_blocks (h : ∀ m < f.instrs.size, ∀ i ∈ f.instrs[m]?, i.op ≠ .phi ∧
    ∀ o ∈ i.args, ∀ id ∈ o.id?, ∃ n < m, f.blockOf n = f.blockOf m ∧ f.Defines n id) :
    f.DefinesBeforeUse given := by
  have hlt : ∀ {m i}, f.instrs[m]? = some i → m < f.instrs.size := fun hi =>
    (Array.getElem?_eq_some_iff.1 hi).1
  refine ⟨fun {m i id} hi _ hid => ?_, fun {m i b id} hi hop _ => absurd hop (h m (hlt hi) i hi).1⟩
  obtain ⟨n, hn, hblock, hdef⟩ := (h m (hlt hi) i hi).2 (.ref id) hid id rfl
  exact .inr ⟨n, hdef, .of_lt hblock hn⟩

/-- At the first instruction only what is given may be read. -/
theorem Available.of_zero (h : f.Available given 0 id) : given id :=
  h.resolve_right fun ⟨n, _, hn⟩ => not_precedes_zero n hn

/-- At the next instruction of the block what this one defines may be read, too. -/
theorem Available.of_succ (h : f.Available given (m + 1) id) (hi : f.instrs[m]? = some i)
    (ht : ¬ i.isTerminator) : f.Defines m id ∨ f.Available given m id := by
  rcases h with hgiven | ⟨n, hdef, hn⟩
  · exact .inr (.inl hgiven)
  · rcases hn.of_succ hi ht with rfl | hn
    · exact .inl hdef
    · exact .inr (.inr ⟨n, hdef, hn⟩)

/-- What may be read at the end of a block may be read at its last instruction. -/
theorem AvailableAtEnd.available (h : f.AvailableAtEnd given (f.blockOf m) id) (hi : f.instrs[m]? = some i)
    (ht : i.isTerminator) : f.Available given m id :=
  h.imp_right fun ⟨n, hdef, hn⟩ => ⟨n, hdef, hdef.precedes_of_dominates hi ht hn⟩

/-- What may be read at the start of a block may be read at the instruction that leads there. -/
theorem Available.of_start {starts : List Nat} (hstarts : f.blockStarts = .ok starts) {b s : Nat}
    (hs : starts[b]? = some s) (h : f.Available given s id) (hi : f.instrs[m]? = some i)
    (ht : i.isTerminator) (hlink : f.Linked (f.blockOf m) b) : f.Available given m id := by
  refine h.imp_right fun ⟨n, hdef, hdominates, hlt⟩ => ?_
  obtain ⟨hblock, hfirst⟩ := blockOf_start hstarts hs
  rw [hblock] at hdominates hlt
  refine ⟨n, hdef, hdef.precedes_of_dominates hi ht (hdominates.of_link hlink fun hsame => ?_)⟩
  have := hfirst n (hlt hsame)
  omega

/-- Markers define nothing. -/
theorem Available.of_skip {k : Nat} (h : f.Available given (m + k) id)
    (hk : ∀ j < k, Lane.atNop f (m + j)) : f.Available given m id := by
  induction k with
  | zero => exact h
  | succ k ih =>
      obtain ⟨i, hi, hnop⟩ := (Option.any_eq_true _ _).1 (hk k (Nat.lt_succ_self k))
      refine ih ?_ fun j hj => hk j (Nat.lt_succ_of_lt hj)
      rw [← Nat.add_assoc] at h
      refine (h.of_succ hi (Instr.not_isTerminator_of_isNop hnop)).resolve_left ?_
      rintro ⟨j, hj, hproduces, -⟩
      rw [hi] at hj
      cases hj
      exact Instr.not_produces_of_isNop hnop hproduces

end Function

/-! ## Reads by phi nodes -/

section

variable {reads reads' : Array (List Id)} {args : List Operand} {b : Nat} {id : Id}

theorem size_of_notePhiArgs (h : notePhiArgs reads args = .ok reads') : reads'.size = reads.size := by
  fun_induction notePhiArgs reads args with
  | case1 => cases h; rfl
  | case2 => cases h
  | case3 => cases h
  | case4 reads id source rest b hsource hb ih => exact (ih h).trans Array.size_modify
  | case5 => cases h
  | case6 _ _ _ _ _ ih => exact ih h

/-- What is noted stays noted. -/
theorem mem_notePhiArgs_of_mem (h : notePhiArgs reads args = .ok reads') (hid : id ∈ reads[b]?.getD []) :
    id ∈ reads'[b]?.getD [] := by
  fun_induction notePhiArgs reads args with
  | case1 => cases h; exact hid
  | case2 => cases h
  | case3 => cases h
  | case4 reads id' source rest b' hsource hb' ih =>
      refine ih h ?_
      rw [Array.getElem?_modify]
      split
      · next hb =>
          subst hb
          rw [Array.getElem?_eq_getElem hb'] at hid ⊢
          rw [Option.map_some, Option.getD_some]
          split
          · exact hid
          · exact List.mem_append_left _ hid
      · exact hid
  | case5 => cases h
  | case6 _ _ _ _ _ ih => exact ih h hid

/-- What a phi node reads for a block is noted for it. -/
theorem mem_notePhiArgs_of_phiOperand (h : notePhiArgs reads args = .ok reads')
    (hphi : Lane.phiOperand b args = .ok (some (.ref id))) : id ∈ reads'[b]?.getD [] := by
  fun_induction notePhiArgs reads args with
  | case1 => cases hphi
  | case2 => cases h
  | case3 => cases h
  | case4 reads id' source rest b' hsource hb' ih =>
      obtain rfl : source = .block b' := by
        cases source <;> cases hsource
        rfl
      rw [Lane.phiOperand] at hphi
      split at hphi
      · next hb =>
          cases hphi
          subst hb
          refine mem_notePhiArgs_of_mem h ?_
          rw [Array.getElem?_modify, if_pos rfl, Array.getElem?_eq_getElem hb', Option.map_some,
            Option.getD_some]
          split
          · next hmem => exact List.contains_iff_mem.1 hmem
          · exact List.mem_append_right _ (List.mem_singleton_self _)
      · exact ih h hphi
  | case5 => cases h
  | case6 reads o source rest hno ih =>
      cases source with
      | block b' =>
          rw [Lane.phiOperand] at hphi
          split at hphi
          · cases hphi
            exact absurd rfl (hno id)
          · exact ih h hphi
      | _ => cases hphi

end

theorem foldlM_notePhiArgs {phis : List Instr} {reads reads' : Array (List Id)}
    (h : phis.foldlM (fun reads i => notePhiArgs reads i.args) reads = .ok reads') :
    reads'.size = reads.size ∧ ∀ {b : Nat} {id : Id}, (id ∈ reads[b]?.getD [] ∨
      ∃ i ∈ phis, Lane.phiOperand b i.args = .ok (some (.ref id))) → id ∈ reads'[b]?.getD [] := by
  induction phis generalizing reads with
  | nil =>
      cases h
      refine ⟨rfl, fun {b id} hid => ?_⟩
      rcases hid with hid | ⟨i, hi, -⟩
      · exact hid
      · cases hi
  | cons i phis ih =>
      rw [List.foldlM_cons] at h
      obtain ⟨reads₁, h₁, h⟩ := ok_of_bind h
      obtain ⟨hsize, hmem⟩ := ih h
      refine ⟨hsize.trans (size_of_notePhiArgs h₁), fun {b id} hid => hmem ?_⟩
      rcases hid with hid | ⟨j, hj, hphi⟩
      · exact .inl (mem_notePhiArgs_of_mem h₁ hid)
      · rcases List.mem_cons.1 hj with rfl | hj
        · exact .inl (mem_notePhiArgs_of_phiOperand h₁ hphi)
        · exact .inr ⟨j, hj, hphi⟩

namespace FunctionAnalysis

variable {p : Program} {index offset : Nat} {a : FunctionAnalysis} {f : Function} {b : Nat} {id : Id}

/-- The phi reads of an analysed function are those of its phi nodes. -/
theorem phiReads_of_ofFunction (h : ofFunction p index offset = .ok a)
    (hf : p.functions[index]? = some f) : a.phiReads.size = f.blocks.size ∧
      ∀ {i}, i ∈ f.instrs → i.op = .phi → ∀ {b id}, Lane.phiOperand b i.args = .ok (some (.ref id)) →
        id ∈ a.phiReadsOf b := by
  obtain ⟨f', hf', -, hphi⟩ := ofFunction_ok h
  obtain rfl : f = f' := Option.some.inj (hf.symm.trans hf')
  obtain ⟨hsize, hmem⟩ := foldlM_notePhiArgs hphi
  refine ⟨hsize.trans Array.size_replicate, fun {i} hi hop {b id} hid => hmem (.inr ⟨i, ?_, hid⟩)⟩
  exact List.mem_filter.2 ⟨Array.mem_toList_iff.2 hi, beq_iff_eq.2 hop⟩

end FunctionAnalysis

end Lockstep
