import Lockstep.Exec.Branch
import Lockstep.Flow.Liveness
import Lockstep.Proofs.Except
import Mathlib.Data.List.Basic

set_option autoImplicit false

/-! # Blocks and positions

An instruction belongs to the block whose number is the number of terminators before it. The blocks
that the analysis locates start where this number goes up (`blockOf_start`), and the blocks that a
terminator can lead to are named by its operands (`terminate_cases`). -/

namespace Lockstep

namespace Function

/-- The block that a position belongs to. -/
def blockOf (f : Function) (i : Nat) : Nat := (f.instrs.toList.take i).countP Instr.isTerminator

theorem blockOf_succ {f : Function} {i : Nat} {instr : Instr} (h : f.instrs[i]? = some instr) :
    f.blockOf (i + 1) = f.blockOf i + if instr.isTerminator then 1 else 0 := by
  rw [← Array.getElem?_toList] at h
  unfold blockOf
  rw [List.take_add_one, h, List.countP_append]
  simp [List.countP_cons]

theorem blockOf_mono (f : Function) {i j : Nat} (h : i ≤ j) : f.blockOf i ≤ f.blockOf j :=
  (List.take_sublist_take_left h).countP_le

theorem blockOf_lt_of_terminator {f : Function} {i j : Nat} {instr : Instr}
    (h : f.instrs[i]? = some instr) (ht : instr.isTerminator) (hij : i < j) :
    f.blockOf i < f.blockOf j := by
  have hsucc := blockOf_succ h
  rw [if_pos ht] at hsucc
  have : f.blockOf (i + 1) ≤ f.blockOf j := f.blockOf_mono hij
  omega

end Function

/-- The starts that a walk finds lie behind a terminator, and they are numbered in order. -/
theorem startsAfter_spec (i : Nat) (instrs : List Instr) {k s : Nat}
    (h : (startsAfter i instrs)[k]? = some s) :
    ∃ n, s = i + n + 1 ∧ (∃ instr, instrs[n]? = some instr ∧ instr.isTerminator) ∧
      (instrs.take (n + 1)).countP Instr.isTerminator = k + 1 := by
  induction instrs generalizing i k with
  | nil => simp [startsAfter] at h
  | cons a rest ih =>
      cases rest with
      | nil => simp [startsAfter] at h
      | cons b rest =>
          rw [startsAfter] at h
          -- a terminator adds the start behind it and is counted, another instruction neither
          by_cases ha : a.isTerminator
          · rw [if_pos ha] at h
            cases k with
            | zero =>
                simp only [List.cons_append, List.nil_append, List.getElem?_cons_zero,
                  Option.some.injEq] at h
                exact ⟨0, h.symm, ⟨a, rfl, ha⟩, by simp [ha]⟩
            | succ k =>
                obtain ⟨n, hs, hn, hcount⟩ := ih (i + 1) h
                refine ⟨n + 1, by omega, hn, ?_⟩
                rw [List.take_succ_cons, List.countP_cons_of_pos ha, hcount]
          · rw [if_neg ha] at h
            obtain ⟨n, hs, hn, hcount⟩ := ih (i + 1) h
            refine ⟨n + 1, by omega, hn, ?_⟩
            rw [List.take_succ_cons, List.countP_cons_of_neg ha, hcount]

theorem lt_of_mem_startsAfter {i s : Nat} {instrs : List Instr} (h : s ∈ startsAfter i instrs) :
    s < i + instrs.length := by
  induction instrs generalizing i with
  | nil => cases h
  | cons x rest ih =>
      cases rest with
      | nil => cases h
      | cons y rest =>
          rw [startsAfter, List.mem_append] at h
          simp only [List.length_cons] at ih ⊢
          rcases h with h | h
          · split at h
            · cases List.mem_singleton.1 h
              omega
            · cases h
          · have := ih h
            omega

namespace Function

theorem blockStarts_eq {f : Function} {starts : List Nat} (h : f.blockStarts = .ok starts) :
    starts.length = f.blocks.size ∧
      starts = if f.instrs.isEmpty then [] else 0 :: startsAfter 0 f.instrs.toList := by
  unfold blockStarts at h
  generalize (if f.instrs.isEmpty then [] else 0 :: startsAfter 0 f.instrs.toList) = found at h ⊢
  simp only at h
  split at h
  · next hlen =>
      injection h with h
      exact ⟨h ▸ hlen, h.symm⟩
  · cases h

/-- Every block starts at an instruction. -/
theorem start_lt {f : Function} {starts : List Nat} (hf : f.blockStarts = .ok starts) {k s : Nat}
    (h : starts[k]? = some s) : s < f.instrs.size := by
  have hmem := List.mem_of_getElem? h
  rw [(blockStarts_eq hf).2] at hmem
  split at hmem
  · cases hmem
  · next hinstrs =>
      rcases List.mem_cons.1 hmem with rfl | hmem
      · exact Array.size_pos_iff.2 fun hnil => hinstrs (hnil ▸ rfl)
      · simpa using lt_of_mem_startsAfter hmem

/-- A start that the analysis finds is the first position of its block. -/
theorem blockOf_start {f : Function} {starts : List Nat} (hf : f.blockStarts = .ok starts)
    {k s : Nat} (h : starts[k]? = some s) : f.blockOf s = k ∧ ∀ j < s, f.blockOf j < k := by
  rw [(blockStarts_eq hf).2] at h
  split at h
  · simp at h
  · cases k with
    | zero =>
        obtain rfl : 0 = s := by simpa using h
        exact ⟨rfl, fun j hj => absurd hj (Nat.not_lt_zero j)⟩
    | succ k =>
        rw [List.getElem?_cons_succ] at h
        obtain ⟨n, hs, ⟨instr, hn, ht⟩, hcount⟩ := startsAfter_spec 0 _ h
        obtain rfl : s = n + 1 := by omega
        have hblock : f.blockOf (n + 1) = k + 1 := hcount
        refine ⟨hblock, ?_⟩
        intro j hj
        rw [Array.getElem?_toList] at hn
        have hlt := blockOf_lt_of_terminator hn ht (Nat.lt_add_one n)
        have := f.blockOf_mono (Nat.le_of_lt_succ hj)
        omega

end Function

/-! ## Targets -/

/-- A link of the flow graph of a function. -/
def Function.Linked (f : Function) (a b : Nat) : Prop := (a, b) ∈ f.links

/-- A marker does not end its block. -/
theorem Instr.not_isTerminator_of_isNop {i : Instr} (h : i.isNop) : ¬ i.isTerminator := by
  unfold Instr.isNop at h
  unfold Instr.isTerminator
  split at h <;> simp_all [Opcode.isTerminator]

/-- The blocks that the cases of a switch lead to. -/
def caseTargets : List Operand → List Nat
  | _ :: .block target :: rest => target :: caseTargets rest
  | _ => []

/-- The blocks that a terminator can lead to. -/
def Instr.targets (i : Instr) : List Nat :=
  match i.op, i.args with
  | .br, [.block target] => [target]
  | .br, [.block ifTrue, .block ifFalse, _] => [ifTrue, ifFalse]
  | .switch, _ :: .block default :: cases => default :: caseTargets cases
  | _, _ => []

namespace Function

/-- The links that the terminators make, from the block of each to its targets. -/
def targetLinks (f : Function) : List (Nat × Nat) :=
  f.instrs.toList.zipIdx.flatMap fun (i, n) =>
    if i.isTerminator then i.targets.map (f.blockOf n, ·) else []

theorem mem_targetLinks (f : Function) (a b : Nat) :
    (a, b) ∈ f.targetLinks ↔
      ∃ n i, f.instrs[n]? = some i ∧ i.isTerminator ∧ f.blockOf n = a ∧ b ∈ i.targets := by
  unfold targetLinks
  simp only [List.mem_flatMap, Prod.exists, List.mem_zipIdx_iff_getElem?, Array.getElem?_toList]
  constructor
  · rintro ⟨i, n, hi, h⟩
    split at h
    · next ht =>
        obtain ⟨c, hc, heq⟩ := List.mem_map.1 h
        cases heq
        exact ⟨n, i, hi, ht, rfl, hc⟩
    · cases h
  · rintro ⟨n, i, hi, ht, rfl, hb⟩
    refine ⟨i, n, hi, ?_⟩
    rw [if_pos ht]
    exact List.mem_map.2 ⟨b, hb, rfl⟩

/-- The blocks list as those that lead to them exactly the blocks whose terminators do. -/
def TargetsAgree (f : Function) : Prop := ∀ link, link ∈ f.links ↔ link ∈ f.targetLinks

instance (f : Function) : Decidable f.TargetsAgree :=
  decidable_of_iff ((∀ link ∈ f.links, link ∈ f.targetLinks) ∧ ∀ link ∈ f.targetLinks, link ∈ f.links)
    ⟨fun h link => ⟨h.1 link, h.2 link⟩, fun h => ⟨fun link => (h link).1, fun link => (h link).2⟩⟩

/-- A terminator links its block to its targets. -/
theorem TargetsAgree.linked {f : Function} (hf : f.TargetsAgree) {n : Nat} {i : Instr}
    (hi : f.instrs[n]? = some i) (ht : i.isTerminator) {b : Nat} (hb : b ∈ i.targets) :
    f.Linked (f.blockOf n) b :=
  (hf _).2 ((f.mem_targetLinks _ b).2 ⟨n, i, hi, ht, rfl, hb⟩)

end Function

namespace Lane

theorem mem_caseTargets_of_switchTarget {l : Lane} {value : UInt64} {default b : Nat}
    {cases : List Operand} (h : l.switchTarget value default cases = .ok b) :
    b ∈ default :: caseTargets cases := by
  fun_induction caseTargets cases with
  | case1 case target rest ih =>
      rw [switchTarget] at h
      obtain ⟨v, -, h⟩ := ok_of_bind h
      split at h
      · exact ok_inj h ▸ by simp
      · rcases List.mem_cons.1 (ih h) with rfl | hb
        · exact List.mem_cons_self ..
        · exact List.mem_cons_of_mem _ (List.mem_cons_of_mem _ hb)
  | case2 cases hno =>
      cases cases with
      | nil => exact ok_inj h ▸ List.mem_cons_self ..
      | cons case rest =>
          rw [switchTarget] at h
          · cases h
          · exact List.cons_ne_nil _ _
          · exact hno

theorem jump_of_branch {l : Lane} {i : Instr} {o : Outcome} (hop : i.op = .br)
    (h : l.branch i = .ok o) : ∃ b ∈ i.targets, o = .jump b := by
  obtain ⟨op, ty, result, name, args, callee⟩ := i
  obtain rfl : op = .br := hop
  unfold branch at h
  split at h
  · next target hargs =>
      obtain rfl : args = _ := hargs
      injection h with h
      exact ⟨target, List.mem_singleton.2 rfl, h.symm⟩
  · next ifTrue ifFalse cond hargs =>
      obtain rfl : args = _ := hargs
      obtain ⟨word, -, hword⟩ := ok_of_map h
      refine ⟨_, ?_, hword.symm⟩
      show _ ∈ [ifTrue, ifFalse]
      split <;> simp
  · cases h

theorem jump_of_switch {l : Lane} {i : Instr} {o : Outcome} (hop : i.op = .switch)
    (h : l.switch i = .ok o) : ∃ b ∈ i.targets, o = .jump b := by
  obtain ⟨op, ty, result, name, args, callee⟩ := i
  obtain rfl : op = .switch := hop
  unfold switch at h
  obtain ⟨value, hvalue, h⟩ := ok_of_bind h
  split at h
  · cases h
  · next default hdefault =>
      obtain ⟨target, htarget, h⟩ := ok_of_bind h
      refine ⟨target, ?_, (ok_inj h).symm⟩
      match args, hdefault, htarget with
      | _ :: .block _ :: cases, hdefault, htarget =>
          obtain rfl := Option.some.inj hdefault
          exact mem_caseTargets_of_switchTarget htarget

/-- A terminator goes to one of its targets, leaves the function or stops the lane. -/
theorem terminate_cases {l : Lane} {i : Instr} {o : Outcome} (h : l.terminate i = .ok o) :
    (∃ b ∈ i.targets, o = .jump b) ∨ o = .leave ∨ o = .effect .kill := by
  unfold terminate at h
  split at h
  · injection h with h
    exact .inr (.inl h.symm)
  · injection h with h
    exact .inr (.inr h.symm)
  · next hop => exact .inl (jump_of_branch hop h)
  · next hop => exact .inl (jump_of_switch hop h)
  · cases h

end Lane

end Lockstep
