import Lockstep.Proofs.Lane.Step
import Mathlib.Logic.Relation

set_option autoImplicit false

/-! # Where lanes are

A step moves a lane to the next instruction, to the start of a block that the instruction names, or
it stops the lane (`Lane.place_of_step`). While a lane runs, the block that it is in is the one that
its instruction belongs to, and this block can be reached from the entry (`Place.Sound`). -/

namespace Lockstep

/-- Where a lane is, and whether it runs. -/
structure Place where
  function : Nat
  block : Nat
  instr : Nat
  globalInstr : Nat
  activeInstr : Nat
  isKilled : Bool
  isEnded : Bool
  isEntered : Bool
deriving DecidableEq

/-- How an instruction moves a lane. -/
inductive Place.Next (a : FunctionAnalysis) (i : Instr) (q : Place) : Place → Prop
  | within (hi : ¬ i.isTerminator) :
      Next a i q { q with instr := q.instr + 1, globalInstr := q.globalInstr + 1 }
  | jump (b start : Nat) (hi : i.isTerminator) (hb : b ∈ i.targets)
      (hstart : a.start? b = some start) :
      Next a i q { q with block := b, instr := start, globalInstr := a.offset + start }
  | stop (q' : Place) (h : q'.isKilled ∨ q'.isEnded) : Next a i q q'

/-- A place that is a number of instructions further on, at which the lane has come to rest. -/
def Place.skip (q : Place) (n : Nat) : Place :=
  { q with instr := q.instr + n, globalInstr := q.globalInstr + n, activeInstr := q.globalInstr + n }

namespace Lane

/-- Where the lane is. -/
def place (l : Lane) : Place :=
  { function := l.function, block := l.block, instr := l.instr, globalInstr := l.globalInstr
    activeInstr := l.activeInstr, isKilled := l.isKilled, isEnded := l.isEnded
    isEntered := l.isEntered }

variable {l l' : Lane}

theorem place_of_frame (h : l'.frame = l.frame) : l'.place = l.place :=
  show l'.frame.place = l.frame.place from congrArg place h

theorem isFinished_of_place (h : l'.place = l.place) : l'.isFinished = l.isFinished :=
  congrArg (fun q : Place => q.isKilled || q.isEnded || !q.isEntered) h

@[simp] theorem place_retire (a : FunctionAnalysis) (keep : Option Id) :
    (l.retire a keep).place = l.place := rfl

@[simp] theorem place_bringIntoScope (id : Id) : (l.bringIntoScope id).place = l.place := rfl

@[simp] theorem place_assign (id : Id) (v : Variable) : (l.assign id v).place = l.place := by
  obtain ⟨_, _, _, -, h⟩ := assign_eq l id v
  rw [h]
  rfl

theorem nextInstr_eq_ok {p : Program} {as : Analyses} {a : FunctionAnalysis} {i : Instr}
    (h : l.nextInstr p as = .ok (a, i)) :
    as.of? l.function = some a ∧
      ∃ f, p.functions[l.function]? = some f ∧ f.instrs[l.instr]? = some i := by
  unfold nextInstr at h
  split at h
  · cases h
  · cases h
  · next a' f ha hf =>
      split at h
      · cases h
      · next i' hi =>
          cases h
          exact ⟨ha, f, hf, hi⟩

theorem place_of_jumpTo {a : FunctionAnalysis} {b : Nat} (h : l.jumpTo a b = .ok l') :
    ∃ start, a.start? b = some start ∧
      l'.place = { l.place with block := b, instr := start, globalInstr := a.offset + start } := by
  obtain ⟨start, hstart, rfl⟩ := jumpTo_ok h
  exact ⟨start, hstart, rfl⟩

/-- A step moves a lane as its instruction says. -/
theorem place_of_step {s : Setting} {w : World} {state : StepState} (hl : ¬ l.isFinished)
    (h : (l.step s w).result = .ok state) :
    ∃ a i, l.nextInstr s.program s.analyses = .ok (a, i) ∧
      l.place.Next a i (l.step s w).lane.place := by
  obtain ⟨a, i, l₁, hnext, hframe, hconcludes⟩ := step_cases hl h
  refine ⟨a, i, hnext, ?_⟩
  have hplace : l₁.place =
      { l.place with instr := l.instr + 1, globalInstr := l.globalInstr + 1 } :=
    place_of_frame hframe
  generalize (l.step s w).lane = l₂ at hconcludes
  cases hconcludes with
  | proceed hi =>
      rw [place_retire, hplace]
      exact .within hi
  | assign id v hi _ =>
      rw [place_bringIntoScope, place_assign, place_retire, hplace]
      exact .within hi
  | jump b l' hi hb hl' =>
      obtain ⟨start, hstart, hl'⟩ := place_of_jumpTo hl'
      rw [place_retire, hl', hplace]
      exact .jump b start hi hb hstart
  | leave => exact .stop _ (.inr rfl)
  | kill => exact .stop _ (.inl rfl)

/-! ## Markers -/

theorem atNop_of_lt_nopsFrom {f : Function} {i n k : Nat} (h : k < nopsFrom f i n) :
    atNop f (i + k) := by
  induction n generalizing i k with
  | zero => simp [nopsFrom] at h
  | succ n ih =>
      rw [nopsFrom] at h
      split at h
      · next hi =>
          cases k with
          | zero => exact hi
          | succ k =>
              rw [← Nat.add_assoc, Nat.add_right_comm]
              exact ih (by omega)
      · omega

theorem not_atNop_after_nopsFrom {f : Function} {i n : Nat} (h : f.instrs.size ≤ i + n) :
    ¬ atNop f (i + nopsFrom f i n) := by
  induction n generalizing i with
  | zero =>
      have : f.instrs[i]? = none := Array.getElem?_eq_none h
      simp [nopsFrom, atNop, this]
  | succ n ih =>
      rw [nopsFrom]
      split
      · rw [← Nat.add_assoc, Nat.add_right_comm]
        exact ih (by omega)
      · assumption

/-- A lane that is not finished moves past exactly the markers at its place. -/
theorem place_skipNops (hl : ¬ l.isFinished) {p : Program} {f : Function}
    (hf : p.functions[l.function]? = some f) :
    (l.skipNops p).place = l.place.skip (nopsFrom f l.instr f.instrs.size) := by
  unfold skipNops
  rw [if_neg hl, hf]
  rfl

/-- Markers do not end their block. -/
theorem blockOf_add_of_atNop {f : Function} {i n : Nat} (h : ∀ k < n, atNop f (i + k)) :
    f.blockOf (i + n) = f.blockOf i := by
  induction n with
  | zero => rfl
  | succ n ih =>
      obtain ⟨instr, hinstr, hnop⟩ :=
        (Option.any_eq_true _ _).1 (h n (Nat.lt_succ_self n))
      rw [← Nat.add_assoc, Function.blockOf_succ hinstr, if_neg (Instr.not_isTerminator_of_isNop hnop)]
      exact ih fun k hk => h k (Nat.lt_succ_of_lt hk)

/-- Moving past markers changes the place only. -/
theorem skipNops_eq (l : Lane) (p : Program) : ∃ instr globalInstr activeInstr,
    l.skipNops p = { l with instr, globalInstr, activeInstr } := by
  unfold skipNops
  split <;> exact ⟨_, _, _, rfl⟩

theorem cells_skipNops (l : Lane) (p : Program) : (l.skipNops p).cells = l.cells := by
  obtain ⟨_, _, _, h⟩ := skipNops_eq l p
  rw [h]

theorem memory_skipNops (l : Lane) (p : Program) : (l.skipNops p).memory = l.memory := by
  obtain ⟨_, _, _, h⟩ := skipNops_eq l p
  rw [h]

theorem previousBlock_skipNops (l : Lane) (p : Program) :
    (l.skipNops p).previousBlock = l.previousBlock := by
  obtain ⟨_, _, _, h⟩ := skipNops_eq l p
  rw [h]

theorem phiValues_skipNops (l : Lane) (p : Program) : (l.skipNops p).phiValues = l.phiValues := by
  obtain ⟨_, _, _, h⟩ := skipNops_eq l p
  rw [h]

theorem isFinished_skipNops (p : Program) : (l.skipNops p).isFinished = l.isFinished := by
  obtain ⟨_, _, _, h⟩ := skipNops_eq l p
  rw [h]
  rfl

end Lane

/-! ## Sound places -/

/-- A place whose block and count over the whole program are those of its instruction. -/
structure Place.Numbered (f : Function) (a : FunctionAnalysis) (function : Nat) (q : Place) : Prop where
  function : q.function = function
  block : q.block = f.blockOf q.instr
  globalInstr : q.globalInstr = a.offset + q.instr

/-- A place in a function that control can reach: the block is that of the instruction. -/
structure Place.Sound (f : Function) (a : FunctionAnalysis) (function : Nat) (q : Place) : Prop where
  function : q.function = function
  block : q.block = f.blockOf q.instr
  globalInstr : q.globalInstr = a.offset + q.instr
  reached : Relation.ReflTransGen f.Linked 0 q.block

variable {f : Function} {a : FunctionAnalysis} {n : Nat} {q q' : Place} {i : Instr}

namespace Place.Numbered

/-- A lane that goes on goes on at a numbered place. -/
theorem next (hstarts : f.blockStarts = .ok a.starts) (h : q.Numbered f a n)
    (hi : f.instrs[q.instr]? = some i) (hnext : q.Next a i q') (hrun : ¬ (q'.isKilled ∨ q'.isEnded)) :
    q'.Numbered f a n := by
  cases hnext with
  | within ht =>
      refine ⟨h.function, ?_, by simp only [h.globalInstr]; omega⟩
      rw [Function.blockOf_succ hi, if_neg ht]
      exact h.block
  | jump b start ht hb hstart =>
      exact ⟨h.function, (Function.blockOf_start hstarts hstart).1.symm, rfl⟩
  | stop _ hstop => exact absurd hstop hrun

/-- A lane that moves past markers stays at a numbered place. -/
theorem skip (h : q.Numbered f a n) {k : Nat} (hk : ∀ j < k, Lane.atNop f (q.instr + j)) :
    (q.skip k).Numbered f a n := by
  refine ⟨h.function, ?_, by simp only [Place.skip, h.globalInstr]; omega⟩
  show q.block = f.blockOf (q.instr + k)
  rw [Lane.blockOf_add_of_atNop hk]
  exact h.block

end Place.Numbered

namespace Place.Sound

theorem numbered (h : q.Sound f a n) : q.Numbered f a n := ⟨h.function, h.block, h.globalInstr⟩

/-- A terminator at a sound place links its block to its targets. -/
theorem link (hf : f.TargetsAgree) (h : q.Sound f a n) (hi : f.instrs[q.instr]? = some i)
    (ht : i.isTerminator) {b : Nat} (hb : b ∈ i.targets) : f.Linked q.block b :=
  h.block ▸ hf.linked hi ht hb

/-- A lane that goes on goes on at a sound place. -/
theorem next (hf : f.TargetsAgree) (hstarts : f.blockStarts = .ok a.starts) (h : q.Sound f a n)
    (hi : f.instrs[q.instr]? = some i) (hnext : q.Next a i q') (hrun : ¬ (q'.isKilled ∨ q'.isEnded)) :
    q'.Sound f a n := by
  obtain ⟨hfunction, hblock, hglobal⟩ := h.numbered.next hstarts hi hnext hrun
  refine ⟨hfunction, hblock, hglobal, ?_⟩
  cases hnext with
  | within _ => exact h.reached
  | jump b start ht hb _ => exact h.reached.tail (h.link hf hi ht hb)
  | stop _ hstop => exact absurd hstop hrun

/-- A lane that moves past markers stays at a sound place. -/
theorem skip (h : q.Sound f a n) {k : Nat} (hk : ∀ j < k, Lane.atNop f (q.instr + j)) :
    (q.skip k).Sound f a n := by
  obtain ⟨hfunction, hblock, hglobal⟩ := h.numbered.skip hk
  exact ⟨hfunction, hblock, hglobal, h.reached⟩

end Place.Sound

end Lockstep
