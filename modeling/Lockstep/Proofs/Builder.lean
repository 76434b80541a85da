import Lockstep.Program.Builder
import Lockstep.Proofs.Blocks
import Mathlib.Algebra.BigOperators.Group.List.Basic
import Mathlib.Algebra.Ring.Nat
import Mathlib.Data.List.Nodup

set_option autoImplicit false

/-! # What a builder lays out

The calls on a builder, taken by themselves, say which instructions go into which block. What the
builder keeps agrees with that after every call (`Records.make`), and so the function that it gives
in the end has its blocks where the analysis looks for them and the links that its terminators make
(`finish_agrees`). -/

namespace Lockstep

/-- A call on the builder of a function. -/
inductive BuilderCall
  | createBlock
  | switchTo (block : Nat)
  | allocId
  | emit (i : Instr)
  | emitValue (op : Opcode) (ty : Ty) (args : List Operand)
  | binary (op : Opcode) (ty : Ty) (lhs rhs : Operand)
  | unary (op : Opcode) (ty : Ty) (value : Operand)
  | intrinsic (op : Intrinsic) (ty : Ty) (args : List Operand)
  | intrinsicVoid (op : Intrinsic) (args : List Operand)
  | marker
  | select (ty : Ty) (cond ifTrue ifFalse : Operand)
  | phi (ty : Ty) (incoming : List (Operand × Nat))
  | alloca (pointee : Ty)
  | load (ty : Ty) (ptr : Id)
  | store (ptr : Id) (value : Operand)
  | gep (pointee : Ty) (base : Id) (indices : List Operand)
  | br (target : Nat)
  | condBr (cond : Operand) (ifTrue ifFalse : Nat)
  | switch (value : Operand) (default : Nat) (cases : List (Constant × Nat))
  | ret
  | unreachable

namespace FunctionBuilder

/-- Make a call. -/
def make (b : FunctionBuilder) : BuilderCall → FunctionBuilder
  | .createBlock => b.createBlock.2
  | .switchTo block => b.switchTo block
  | .allocId => b.allocId.2
  | .emit i => b.emit i
  | .emitValue op ty args => (b.emitValue op ty args).2
  | .binary op ty lhs rhs => (b.binary op ty lhs rhs).2
  | .unary op ty value => (b.unary op ty value).2
  | .intrinsic op ty args => (b.intrinsic op ty args).2
  | .intrinsicVoid op args => b.intrinsicVoid op args
  | .marker => b.marker
  | .select ty cond ifTrue ifFalse => (b.select ty cond ifTrue ifFalse).2
  | .phi ty incoming => (b.phi ty incoming).2
  | .alloca pointee => (b.alloca pointee).2
  | .load ty ptr => (b.load ty ptr).2
  | .store ptr value => b.store ptr value
  | .gep pointee base indices => (b.gep pointee base indices).2
  | .br target => b.br target
  | .condBr cond ifTrue ifFalse => b.condBr cond ifTrue ifFalse
  | .switch value default cases => b.switch value default cases
  | .ret => b.ret
  | .unreachable => b.unreachable

/-- Make calls one after the other. -/
def makeAll (b : FunctionBuilder) (calls : List BuilderCall) : FunctionBuilder := calls.foldl make b

end FunctionBuilder

/-! ## What the calls say -/

theorem Instr.targets_of_not_isTerminator {i : Instr} (h : ¬ i.isTerminator) : i.targets = [] := by
  unfold Instr.targets
  split
  · next hop _ => exact absurd (by rw [Instr.isTerminator, hop]; rfl) h
  · next hop _ => exact absurd (by rw [Instr.isTerminator, hop]; rfl) h
  · next hop _ => exact absurd (by rw [Instr.isTerminator, hop]; rfl) h
  · rfl

namespace BuilderCall

/-- Whether the call hands out an identifier. -/
def takesId : BuilderCall → Bool
  | .allocId | .emitValue .. | .binary .. | .unary .. | .intrinsic .. | .select .. | .phi .. | .alloca _
  | .load .. | .gep .. => true
  | _ => false

/-- The instruction that the call appends, with an identifier for its result. -/
def appended? (id : Id) : BuilderCall → Option Instr
  | .createBlock | .switchTo _ | .allocId => none
  | .emit i => some i
  | .emitValue op ty args => some { op, ty, result := some id, args }
  | .binary op ty lhs rhs => some { op, ty, result := some id, args := [lhs, rhs] }
  | .unary op ty value => some { op, ty, result := some id, args := [value] }
  | .intrinsic op ty args =>
      some { op := .call, ty, result := some id, args, callee := some (.intrinsic op) }
  | .intrinsicVoid op args => some { op := .call, args, callee := some (.intrinsic op) }
  | .marker => some { op := .call, callee := some .marker }
  | .select ty cond ifTrue ifFalse =>
      some { op := .select, ty, result := some id, args := [ifTrue, ifFalse, cond] }
  | .phi ty incoming =>
      some { op := .phi, ty, result := some id, args := incoming.flatMap fun p => [p.1, .block p.2] }
  | .alloca pointee => some { op := .alloca, ty := .pointer pointee .stack, result := some id }
  | .load ty ptr => some { op := .load, ty, result := some id, args := [.ref ptr] }
  | .store ptr value => some { op := .store, args := [.ref ptr, value] }
  | .gep pointee base indices =>
      some { op := .getElementPtr, ty := .pointer pointee .stack, result := some id,
             args := .ref base :: indices }
  | .br target => some { op := .br, args := [.block target] }
  | .condBr cond ifTrue ifFalse =>
      some { op := .br, args := [.block ifTrue, .block ifFalse, cond] }
  | .switch value default cases =>
      some { op := .switch,
             args := value :: .block default :: cases.flatMap fun c => [.const c.1, .block c.2] }
  | .ret => some { op := .ret }
  | .unreachable => some { op := .unreachable }

/-- Whether the call is one of those that end a block. -/
def endsBlock : BuilderCall → Bool
  | .br _ | .condBr .. | .switch .. | .ret | .unreachable => true
  | _ => false

/-- The blocks that the call makes control go to. -/
def targets : BuilderCall → List Nat
  | .br target => [target]
  | .condBr _ ifTrue ifFalse => [ifTrue, ifFalse]
  | .switch _ default cases => default :: cases.map (·.2)
  | _ => []

theorem caseTargets_flatMap (cases : List (Constant × Nat)) :
    caseTargets (cases.flatMap fun c => [.const c.1, .block c.2]) = cases.map (·.2) := by
  induction cases with
  | nil => rfl
  | cons c rest ih => simp only [List.flatMap_cons, List.cons_append, List.nil_append, caseTargets, ih,
      List.map_cons]

/-- The instruction that a call appends leads where the call says. -/
theorem targets_appended {c : BuilderCall} {id : Id} {i : Instr} (h : c.appended? id = some i)
    (hends : i.isTerminator → c.endsBlock) : i.targets = c.targets := by
  by_cases hc : c.endsBlock
  · cases c with
    | switch value default cases =>
        cases h
        exact congrArg (default :: ·) (caseTargets_flatMap cases)
    | br | condBr | ret | unreachable => cases h; rfl
    | _ => cases hc
  · rw [Instr.targets_of_not_isTerminator (mt hends hc)]
    cases c with
    | br | condBr | switch => exact absurd rfl hc
    | _ => rfl

end BuilderCall

/-- Where the calls have led to: the block that instructions go into, the number of blocks and the
    next identifier. -/
structure Cursor where
  block : Nat := 0
  blocks : Nat := 1
  nextId : Nat
deriving DecidableEq, Repr

namespace Cursor

/-- Where a function starts. -/
def start (p : ProgramBuilder) : Cursor := { nextId := p.nextId }

/-- Where one more call leads to. -/
def next (pos : Cursor) (c : BuilderCall) : Cursor :=
  match c with
  | .createBlock => { pos with blocks := pos.blocks + 1 }
  | .switchTo block => { pos with block }
  | c => if c.takesId then { pos with nextId := pos.nextId + 1 } else pos

/-- Where calls lead to, made one after the other. -/
def after (pos : Cursor) (calls : List BuilderCall) : Cursor := calls.foldl next pos

/-- The instruction that a call appends here. -/
def appended? (pos : Cursor) (c : BuilderCall) : Option Instr := c.appended? ⟨pos.nextId⟩

/-- A call may be made here: its instruction has a block to go into, its targets exist, and it
    appends a terminator only if it is made for that. -/
def Allows (pos : Cursor) (c : BuilderCall) : Prop :=
  (∀ i ∈ pos.appended? c, pos.block < pos.blocks ∧ (i.isTerminator → c.endsBlock)) ∧
    ∀ t ∈ c.targets, t < pos.blocks

instance (pos : Cursor) (c : BuilderCall) : Decidable (pos.Allows c) := inferInstanceAs (Decidable (_ ∧ _))

/-- The calls may be made one after the other. -/
def AllowsAll : Cursor → List BuilderCall → Prop
  | _, [] => True
  | pos, c :: calls => pos.Allows c ∧ (pos.next c).AllowsAll calls

instance decidableAllowsAll : (pos : Cursor) → (calls : List BuilderCall) → Decidable (pos.AllowsAll calls)
  | _, [] => .isTrue trivial
  | pos, c :: calls =>
      have := decidableAllowsAll (pos.next c) calls
      inferInstanceAs (Decidable (_ ∧ _))

/-- The instructions that calls append, each with its block. -/
def emissions : Cursor → List BuilderCall → List (Nat × Instr)
  | _, [] => []
  | pos, c :: calls => (pos.appended? c).toList.map (pos.block, ·) ++ (pos.next c).emissions calls

end Cursor

/-- The instructions that go into a block. -/
def emittedInto (es : List (Nat × Instr)) (k : Nat) : List Instr := (es.filter (·.1 == k)).map (·.2)

theorem emittedInto_append (es es' : List (Nat × Instr)) (k : Nat) :
    emittedInto (es ++ es') k = emittedInto es k ++ emittedInto es' k := by
  simp only [emittedInto, List.filter_append, List.map_append]

theorem mem_emittedInto {es : List (Nat × Instr)} {k : Nat} {i : Instr} :
    i ∈ emittedInto es k ↔ (k, i) ∈ es := by
  simp [emittedInto]

/-- The instructions that calls put into a block. -/
def Cursor.written (pos : Cursor) (calls : List BuilderCall) (k : Nat) : List Instr :=
  emittedInto (pos.emissions calls) k

/-- The instructions end at their only terminator. -/
def EndsOnce (instrs : List Instr) : Prop :=
  (∃ i ∈ instrs.getLast?, i.isTerminator) ∧ ∀ i ∈ instrs.dropLast, ¬ i.isTerminator

instance (instrs : List Instr) : Decidable (EndsOnce instrs) := inferInstanceAs (Decidable (_ ∧ _))

/-! ## What the builder keeps -/

/-- The predecessor lists and instructions of a block are those that the emissions give it. -/
structure OpenBlock.Records (blk : OpenBlock) (k : Nat) (es : List (Nat × Instr)) : Prop where
  instrs : blk.instrs.toList = emittedInto es k
  nodup : blk.preds.Nodup
  mem_preds : ∀ s, s ∈ blk.preds ↔ ∃ i, (s, i) ∈ es ∧ k ∈ i.targets

namespace FunctionBuilder

/-- A builder is where the calls have led to and keeps what they appended. -/
structure Records (b : FunctionBuilder) (pos : Cursor) (es : List (Nat × Instr)) : Prop where
  current : b.current = pos.block
  size : b.blocks.size = pos.blocks
  nextId : b.program.nextId = pos.nextId
  block : ∀ {k} {blk : OpenBlock}, b.blocks[k]? = some blk → blk.Records k es
  within : ∀ e ∈ es, e.1 < pos.blocks ∧ ∀ t ∈ e.2.targets, t < pos.blocks

theorem records_function (p : ProgramBuilder) (name : String) :
    (p.function name).Records (.start p) [] where
  current := rfl
  size := rfl
  nextId := rfl
  block {k blk} h := by
    obtain ⟨hk, rfl⟩ := Array.getElem?_eq_some_iff.1 h
    obtain rfl : k = 0 := Nat.lt_one_iff.1 hk
    exact ⟨rfl, List.nodup_nil, by simp [ProgramBuilder.function]⟩
  within := by simp

theorem current_foldl_addPred (b : FunctionBuilder) (targets : List Nat) :
    (targets.foldl addPred b).current = b.current := by
  induction targets generalizing b with
  | nil => rfl
  | cons t ts ih => rw [List.foldl_cons, ih]; rfl

theorem program_foldl_addPred (b : FunctionBuilder) (targets : List Nat) :
    (targets.foldl addPred b).program = b.program := by
  induction targets generalizing b with
  | nil => rfl
  | cons t ts ih => rw [List.foldl_cons, ih]; rfl

theorem size_foldl_addPred (b : FunctionBuilder) (targets : List Nat) :
    (targets.foldl addPred b).blocks.size = b.blocks.size := by
  induction targets generalizing b with
  | nil => rfl
  | cons t ts ih => rw [List.foldl_cons, ih]; exact Array.size_modify

/-- The target has the current block among its predecessors, once. -/
theorem addPred_block (b : FunctionBuilder) (t : Nat) {k : Nat} {blk' : OpenBlock}
    (h : (b.addPred t).blocks[k]? = some blk') :
    ∃ blk, b.blocks[k]? = some blk ∧ blk'.instrs = blk.instrs ∧ (blk.preds.Nodup → blk'.preds.Nodup) ∧
      ∀ s, s ∈ blk'.preds ↔ s ∈ blk.preds ∨ s = b.current ∧ k = t := by
  rw [addPred, Array.getElem?_modify] at h
  by_cases htk : t = k
  · rw [if_pos htk] at h
    obtain ⟨blk, hblk, rfl⟩ := Option.map_eq_some_iff.1 h
    refine ⟨blk, hblk, ?_⟩
    by_cases hin : b.current ∈ blk.preds
    · rw [if_pos (List.contains_iff_mem.2 hin)]
      refine ⟨rfl, id, fun s => ⟨.inl, ?_⟩⟩
      rintro (hs | ⟨rfl, -⟩)
      · exact hs
      · exact hin
    · rw [if_neg (mt List.contains_iff_mem.1 hin)]
      refine ⟨rfl, fun hnodup => ?_, fun s => ?_⟩
      · exact hnodup.append (List.nodup_singleton _) (List.disjoint_singleton.2 hin)
      · rw [List.mem_append, List.mem_singleton, and_iff_left htk.symm]
  · rw [if_neg htk] at h
    exact ⟨blk', h, rfl, id, fun s => ⟨.inl, fun hs => hs.resolve_right fun e => htk e.2.symm⟩⟩

/-- The blocks that were targets have the current block among their predecessors, once. -/
theorem foldl_addPred_block (b : FunctionBuilder) (targets : List Nat) {k : Nat} {blk' : OpenBlock}
    (h : (targets.foldl addPred b).blocks[k]? = some blk') :
    ∃ blk, b.blocks[k]? = some blk ∧ blk'.instrs = blk.instrs ∧ (blk.preds.Nodup → blk'.preds.Nodup) ∧
      ∀ s, s ∈ blk'.preds ↔ s ∈ blk.preds ∨ s = b.current ∧ k ∈ targets := by
  induction targets generalizing b with
  | nil => exact ⟨blk', h, rfl, id, by simp⟩
  | cons t ts ih =>
      obtain ⟨mid, hmid, hinstrs, hnodup, hmem⟩ := ih (b.addPred t) h
      obtain ⟨blk, hblk, hinstrs', hnodup', hmem'⟩ := b.addPred_block t hmid
      refine ⟨blk, hblk, hinstrs.trans hinstrs', hnodup ∘ hnodup', fun s => ?_⟩
      have hcur : (b.addPred t).current = b.current := rfl
      rw [hmem s, hmem' s, hcur, List.mem_cons, and_or_left, or_assoc]

/-- A call with an instruction notes its targets, takes its identifier and appends. -/
theorem make_of_appended {b : FunctionBuilder} {c : BuilderCall} {i : Instr}
    (h : c.appended? ⟨b.program.nextId⟩ = some i) :
    b.make c = (c.targets.foldl addPred (if c.takesId then b.allocId.2 else b)).emit i := by
  cases c <;> cases h <;> rfl

namespace Records

variable {b : FunctionBuilder} {pos : Cursor} {es : List (Nat × Instr)}

theorem allocId (h : b.Records pos es) :
    b.allocId.2.Records { pos with nextId := pos.nextId + 1 } es :=
  { h with nextId := congrArg (· + 1) h.nextId }

theorem switchTo (h : b.Records pos es) (block : Nat) :
    (b.switchTo block).Records { pos with block } es :=
  { h with current := rfl }

/-- No link leads to a block before it is created. -/
theorem createBlock (h : b.Records pos es) :
    b.createBlock.2.Records { pos with blocks := pos.blocks + 1 } es where
  current := h.current
  size := by rw [← h.size]; exact Array.size_push ..
  nextId := h.nextId
  block {k blk} hblk := by
    rw [FunctionBuilder.createBlock, Array.getElem?_push] at hblk
    split at hblk
    · next hk =>
        cases hblk
        have hsize := h.size
        refine ⟨?_, List.nodup_nil, fun s => ⟨nofun, ?_⟩⟩
        · refine (List.eq_nil_iff_forall_not_mem.2 fun i hi => ?_).symm
          have := (h.within _ (mem_emittedInto.1 hi)).1
          omega
        · rintro ⟨i, hi, ht⟩
          have := (h.within _ hi).2 k ht
          omega
    · exact h.block hblk
  within e he := ⟨Nat.lt_succ_of_lt (h.within e he).1, fun t ht => Nat.lt_succ_of_lt ((h.within e he).2 t ht)⟩

/-- An instruction goes behind those of the current block, which becomes a predecessor of its
    targets. -/
theorem emit (h : b.Records pos es) {i : Instr} (hpos : pos.block < pos.blocks)
    (ht : ∀ t ∈ i.targets, t < pos.blocks) :
    ((i.targets.foldl addPred b).emit i).Records pos (es ++ [(pos.block, i)]) where
  current := (b.current_foldl_addPred _).trans h.current
  size := by rw [← h.size, ← b.size_foldl_addPred i.targets]; exact Array.size_modify
  nextId := by rw [← h.nextId, ← b.program_foldl_addPred i.targets]; rfl
  block {k blk} hblk := by
    rw [FunctionBuilder.emit, Array.getElem?_modify, b.current_foldl_addPred, h.current] at hblk
    -- what the block is before the instruction is appended
    have hmid : ∃ mid, (i.targets.foldl addPred b).blocks[k]? = some mid ∧ blk.preds = mid.preds ∧
        blk.instrs.toList = mid.instrs.toList ++ emittedInto [(pos.block, i)] k := by
      split at hblk
      · next hk =>
          obtain ⟨mid, hmid, rfl⟩ := Option.map_eq_some_iff.1 hblk
          exact ⟨mid, hmid, rfl, by simp [emittedInto, hk]⟩
      · next hk => exact ⟨blk, hblk, rfl, by simp [emittedInto, hk]⟩
    obtain ⟨mid, hmid, hpreds, hinstrs⟩ := hmid
    obtain ⟨old, hold, hmidInstrs, hnodup, hmem⟩ := b.foldl_addPred_block i.targets hmid
    have hrec := h.block hold
    refine ⟨?_, hpreds ▸ hnodup hrec.nodup, fun s => ?_⟩
    · rw [hinstrs, hmidInstrs, hrec.instrs, emittedInto_append]
    · rw [hpreds, hmem, hrec.mem_preds, h.current]
      simp only [List.mem_append, List.mem_singleton, Prod.mk.injEq, or_and_right, exists_or]
      refine or_congr_right ⟨?_, ?_⟩
      · rintro ⟨hs, hk⟩
        exact ⟨i, ⟨hs, rfl⟩, hk⟩
      · rintro ⟨_, ⟨hs, rfl⟩, hk⟩
        exact ⟨hs, hk⟩
  within e he := by
    rcases List.mem_append.1 he with he | he
    · exact h.within e he
    · cases List.mem_singleton.1 he
      exact ⟨hpos, ht⟩

/-- The builder keeps what a call appends, if the call may be made. -/
theorem make (h : b.Records pos es) {c : BuilderCall} (hc : pos.Allows c) :
    (b.make c).Records (pos.next c) (es ++ (pos.appended? c).toList.map (pos.block, ·)) := by
  cases happ : pos.appended? c with
  | none =>
      rw [Option.toList_none, List.map_nil, List.append_nil]
      cases c with
      | createBlock => exact h.createBlock
      | switchTo block => exact h.switchTo block
      | allocId => exact h.allocId
      | _ => cases happ
  | some i =>
      obtain ⟨hpos, hends⟩ := hc.1 i happ
      have htargets : i.targets = c.targets := BuilderCall.targets_appended happ hends
      -- the identifier is taken first
      have hid : (if c.takesId then b.allocId.2 else b).Records (pos.next c) es := by
        cases c with
        | createBlock | switchTo | allocId => cases happ
        | _ => first | exact h | exact h.allocId
      have hnext : (pos.next c).block = pos.block ∧ (pos.next c).blocks = pos.blocks := by
        cases c with
        | createBlock | switchTo | allocId => cases happ
        | _ => exact ⟨rfl, rfl⟩
      rw [make_of_appended (i := i) (by rw [h.nextId]; exact happ), ← htargets, Option.toList_some,
        List.map_singleton, ← hnext.1]
      exact hid.emit (by rwa [hnext.1, hnext.2]) (by rw [hnext.2, htargets]; exact hc.2)

theorem makeAll (h : b.Records pos es) {calls : List BuilderCall} (hcalls : pos.AllowsAll calls) :
    (b.makeAll calls).Records (pos.after calls) (es ++ pos.emissions calls) := by
  induction calls generalizing b pos es with
  | nil => rwa [Cursor.emissions, List.append_nil]
  | cons c calls ih =>
      have := ih (h.make hcalls.1) hcalls.2
      rwa [List.append_assoc] at this

end Records

end FunctionBuilder

/-! ## The finished function -/

theorem startsAfter_append_cons (i : Nat) {body : List Instr} {last : Instr} (rest : List Instr)
    (hbody : ∀ instr ∈ body, ¬ instr.isTerminator) (hlast : last.isTerminator) :
    startsAfter i (body ++ last :: rest) =
      if rest = [] then [] else (i + body.length + 1) :: startsAfter (i + body.length + 1) rest := by
  induction body generalizing i with
  | nil =>
      cases rest with
      | nil => rfl
      | cons a rest => rw [List.nil_append, startsAfter, if_pos hlast]; rfl
  | cons a body ih =>
      obtain ⟨b, tail, htail⟩ : ∃ b tail, body ++ last :: rest = b :: tail :=
        List.exists_cons_of_ne_nil (by simp)
      have := ih (i + 1) fun instr h => hbody instr (List.mem_cons_of_mem _ h)
      rw [List.cons_append, htail, startsAfter, if_neg (hbody a (List.mem_cons_self ..)), List.nil_append,
        ← htail, this, List.length_cons, Nat.add_right_comm i 1, Nat.add_assoc i body.length 1]

/-- Only the terminator of a block leads anywhere. -/
theorem EndsOnce.mem_getLast? {instrs : List Instr} (h : EndsOnce instrs) {i : Instr} (hi : i ∈ instrs)
    {t : Nat} (ht : t ∈ i.targets) : i ∈ instrs.getLast? := by
  obtain ⟨⟨last, hlast, -⟩, hbody⟩ := h
  rw [← List.dropLast_append_getLast? last hlast, List.mem_append, List.mem_singleton] at hi
  rcases hi with hi | rfl
  · rw [Instr.targets_of_not_isTerminator (hbody i hi)] at ht
    cases ht
  · exact hlast

theorem EndsOnce.ne_nil {instrs : List Instr} (h : EndsOnce instrs) : instrs ≠ [] := by
  rintro rfl
  obtain ⟨⟨i, hi, -⟩, -⟩ := h
  cases hi

theorem EndsOnce.startsAfter_append (i : Nat) {instrs : List Instr} (h : EndsOnce instrs)
    (rest : List Instr) :
    startsAfter i (instrs ++ rest) =
      if rest = [] then [] else (i + instrs.length) :: startsAfter (i + instrs.length) rest := by
  obtain ⟨⟨last, hlast, hterm⟩, hbody⟩ := h
  have hsplit : instrs.dropLast ++ [last] = instrs := List.dropLast_append_getLast? last hlast
  generalize instrs.dropLast = body at hsplit hbody
  subst hsplit
  rw [List.append_assoc, List.singleton_append, startsAfter_append_cons i rest hbody hterm,
    List.length_append, List.length_singleton, Nat.add_assoc]

/-- Blocks laid out one after the other start where the lengths of those before them say. -/
theorem startsAfter_flatten (i : Nat) {blocks : List (List Instr)} (hne : blocks ≠ [])
    (h : ∀ instrs ∈ blocks, EndsOnce instrs) :
    i :: startsAfter i blocks.flatten =
      (List.range blocks.length).map fun k => i + (blocks.take k).flatten.length := by
  induction blocks generalizing i with
  | nil => exact absurd rfl hne
  | cons instrs rest ih =>
      obtain ⟨hfirst, hrest⟩ := List.forall_mem_cons.1 h
      rw [List.flatten_cons, hfirst.startsAfter_append, List.length_cons, List.range_succ_eq_map,
        List.map_cons, List.map_map]
      refine congrArg (i :: ·) ?_
      cases rest with
      | nil => rfl
      | cons second rest =>
          have hne : (second :: rest).flatten ≠ [] := by
            rw [List.flatten_cons]
            exact List.append_ne_nil_of_left_ne_nil (hrest second (List.mem_cons_self ..)).ne_nil _
          rw [if_neg hne, ih _ nofun hrest]
          refine List.map_congr_left fun k _ => ?_
          rw [Function.comp_apply, List.take_succ_cons, List.flatten_cons, List.length_append, Nat.add_assoc]

/-- The analysis finds blocks that are laid out one after the other. -/
theorem blockStarts_of_flatten {f : Function} {blocks : List (List Instr)}
    (hf : f.instrs.toList = blocks.flatten) (hsize : f.blocks.size = blocks.length)
    (h : ∀ instrs ∈ blocks, EndsOnce instrs) :
    f.blockStarts = .ok ((List.range blocks.length).map fun k => (blocks.take k).flatten.length) := by
  have hstarts : (if f.instrs.isEmpty then [] else 0 :: startsAfter 0 f.instrs.toList) =
      (List.range blocks.length).map fun k => (blocks.take k).flatten.length := by
    rw [← Array.isEmpty_toList, hf]
    cases blocks with
    | nil => rfl
    | cons first rest =>
        have hne : (first :: rest).flatten ≠ [] := by
          rw [List.flatten_cons]
          exact List.append_ne_nil_of_left_ne_nil (h first (List.mem_cons_self ..)).ne_nil _
        rw [if_neg (by rwa [List.isEmpty_iff]), startsAfter_flatten 0 (List.cons_ne_nil first rest) h]
        simp only [Nat.zero_add]
  rw [Function.blockStarts, hstarts]
  exact if_pos (by rw [List.length_map, List.length_range, hsize])

theorem mem_linksFrom {n s t : Nat} {blocks : List Block} :
    (s, t) ∈ Function.linksFrom n blocks ↔ ∃ k blk, blocks[k]? = some blk ∧ t = n + k ∧ s ∈ blk.preds := by
  induction blocks generalizing n with
  | nil => simp [Function.linksFrom]
  | cons b bs ih =>
      rw [Function.linksFrom, List.mem_append, ih, List.mem_map]
      constructor
      · rintro (⟨_, hs, heq⟩ | ⟨k, blk, hblk, ht, hs⟩)
        · cases heq
          exact ⟨0, b, rfl, rfl, hs⟩
        · exact ⟨k + 1, blk, hblk, by omega, hs⟩
      · rintro ⟨k, blk, hblk, ht, hs⟩
        cases k with
        | zero =>
            cases hblk
            exact .inl ⟨s, hs, by rw [ht]; rfl⟩
        | succ k => exact .inr ⟨k, blk, hblk, by omega, hs⟩

theorem nodup_linksFrom (n : Nat) {blocks : List Block} (h : ∀ blk ∈ blocks, blk.preds.Nodup) :
    (Function.linksFrom n blocks).Nodup := by
  induction blocks generalizing n with
  | nil => exact List.nodup_nil
  | cons b bs ih =>
      obtain ⟨hb, hbs⟩ := List.forall_mem_cons.1 h
      refine (hb.map fun _ _ e => congrArg Prod.fst e).append (ih (n + 1) hbs) ?_
      -- later blocks have larger numbers
      rintro ⟨s, t⟩ hst hrest
      obtain ⟨_, -, heq⟩ := List.mem_map.1 hst
      obtain ⟨k, blk, -, ht, -⟩ := mem_linksFrom.1 hrest
      have := congrArg Prod.snd heq
      simp only at this
      omega

namespace FunctionBuilder

/-- What the function has that a builder gives in the end. -/
theorem Records.finish {b : FunctionBuilder} {pos : Cursor} {es : List (Nat × Instr)}
    (h : b.Records pos es) :
    ∃ f, b.finish.2.functions[b.finish.1]? = some f ∧ f.blocks.size = pos.blocks ∧
      f.instrs.toList = ((List.range pos.blocks).map (emittedInto es)).flatten ∧
      f.links.Nodup ∧ ∀ s t, (s, t) ∈ f.links ↔ ∃ i, (s, i) ∈ es ∧ t ∈ i.targets := by
  refine ⟨_, Array.getElem?_push_size, ?_, ?_, ?_, ?_⟩
  · rw [Array.size_map, h.size]
  · rw [Array.toList_flatMap, List.flatMap_def]
    refine congrArg List.flatten (List.ext_getElem? fun k => ?_)
    rw [List.getElem?_map, List.getElem?_map, Array.getElem?_toList, ← h.size]
    by_cases hk : k < b.blocks.size
    · rw [Array.getElem?_eq_getElem hk, List.getElem?_range hk]
      exact congrArg some (h.block (Array.getElem?_eq_getElem hk)).instrs
    · rw [Array.getElem?_eq_none (Nat.le_of_not_lt hk), List.getElem?_eq_none (by simpa using hk)]
      rfl
  · refine nodup_linksFrom 0 fun blk hblk => ?_
    obtain ⟨k, hk⟩ := List.getElem?_of_mem hblk
    rw [Array.getElem?_toList, Array.getElem?_map] at hk
    obtain ⟨open_, hopen, rfl⟩ := Option.map_eq_some_iff.1 hk
    exact (h.block hopen).nodup
  · intro s t
    rw [Function.links, mem_linksFrom]
    constructor
    · rintro ⟨k, blk, hk, rfl, hs⟩
      rw [Array.getElem?_toList, Array.getElem?_map] at hk
      obtain ⟨open_, hopen, rfl⟩ := Option.map_eq_some_iff.1 hk
      rw [Nat.zero_add]
      exact ((h.block hopen).mem_preds s).1 hs
    · rintro ⟨i, hi, ht⟩
      have hlt : t < b.blocks.size := h.size ▸ (h.within _ hi).2 t ht
      have hopen := Array.getElem?_eq_getElem hlt
      refine ⟨t, { preds := b.blocks[t].preds }, ?_, (Nat.zero_add t).symm, ?_⟩
      · rw [Array.getElem?_toList, Array.getElem?_map, hopen]
        rfl
      · exact ((h.block hopen).mem_preds s).2 ⟨i, hi, ht⟩

/-- For every sequence of calls that fills each block and ends it once, the analysis finds the
    blocks of the finished function where the calls have put them, and the links of the function
    are, each once, those from a block to the targets of its terminator. -/
theorem finish_agrees (p : ProgramBuilder) (name : String) {calls : List BuilderCall}
    (hcalls : (Cursor.start p).AllowsAll calls)
    (hends : ∀ k < ((Cursor.start p).after calls).blocks, EndsOnce ((Cursor.start p).written calls k)) :
    ∃ f starts, ((p.function name).makeAll calls).finish.2.functions[
        ((p.function name).makeAll calls).finish.1]? = some f ∧
      f.blockStarts = .ok starts ∧ starts.length = ((Cursor.start p).after calls).blocks ∧
      (∀ k < ((Cursor.start p).after calls).blocks, ∃ s, starts[k]? = some s ∧
        s = ((List.range k).map fun j => ((Cursor.start p).written calls j).length).sum ∧
        (Cursor.start p).written calls k <+: f.instrs.toList.drop s) ∧
      f.links.Nodup ∧
      ∀ s t, (s, t) ∈ f.links ↔
        ∃ i ∈ ((Cursor.start p).written calls s).getLast?, t ∈ i.targets := by
  have hrec := (records_function p name).makeAll hcalls
  rw [List.nil_append] at hrec
  obtain ⟨f, hf, hsize, hinstrs, hnodup, hmem⟩ := hrec.finish
  have hwithin := hrec.within
  unfold Cursor.written at *
  generalize ((Cursor.start p).after calls).blocks = n at *
  generalize (Cursor.start p).emissions calls = es at *
  have hlen : ((List.range n).map (emittedInto es)).length = n := by simp
  have hstarts := blockStarts_of_flatten hinstrs (hsize.trans hlen.symm) (by simpa using hends)
  refine ⟨f, _, hf, hstarts, by simp, fun k hk => ?_, hnodup, fun s t => ?_⟩
  · have hbefore : ((List.range n).map (emittedInto es)).take k = (List.range k).map (emittedInto es) := by
      rw [← List.map_take, List.take_range, Nat.min_eq_left (Nat.le_of_lt hk)]
    have hlength : (((List.range n).map (emittedInto es)).take k).flatten.length =
        ((List.range k).map fun j => (emittedInto es j).length).sum := by
      rw [hbefore, List.length_flatten, List.map_map]
      rfl
    refine ⟨_, ?_, rfl, ?_⟩
    · rw [List.getElem?_map, List.getElem?_range (hlen.symm ▸ hk), ← hlength]
      rfl
    · rw [hinstrs, ← hlength, List.length_flatten, List.map_take, List.drop_sum_flatten,
        List.drop_eq_getElem_cons (hlen.symm ▸ hk), List.flatten_cons, List.getElem_map,
        List.getElem_range]
      exact List.prefix_append ..
  · rw [hmem]
    constructor
    · rintro ⟨i, hi, ht⟩
      have hs : s < n := (hwithin _ hi).1
      exact ⟨i, (hends s hs).mem_getLast? (mem_emittedInto.2 hi) ht, ht⟩
    · rintro ⟨i, hi, ht⟩
      exact ⟨i, mem_emittedInto.1 (List.mem_of_getLast? hi), ht⟩

/-- Blocks that are created before they are filled, filled in another order, left and taken up again,
    and led to more than once. -/
def interleavedCalls : List BuilderCall :=
  [.createBlock, .createBlock, .binary .add (.int 32) (.const (.int 32 1)) (.const (.int 32 2)),
    .switchTo 2, .marker, .switchTo 0, .condBr (.ref ⟨0⟩) 2 2, .switchTo 1, .ret, .createBlock,
    .switchTo 2, .switch (.ref ⟨0⟩) 1 [(.int 32 4, 3), (.int 32 5, 1), (.int 32 6, 2)], .switchTo 3, .br 1]

theorem interleavedCalls_agrees :
    (Cursor.start { stage := .compute }).AllowsAll interleavedCalls ∧
      (∀ k < 4, EndsOnce ((Cursor.start { stage := .compute }).written interleavedCalls k)) ∧
      ∃ f starts, ((ProgramBuilder.function { stage := .compute } "main").makeAll interleavedCalls
          ).finish.2.functions[0]? = some f ∧
        f.blockStarts = .ok starts ∧ starts[2]? = some 3 ∧ f.links.Nodup ∧ (2, 1) ∈ f.links := by
  have hcalls : (Cursor.start { stage := .compute }).AllowsAll interleavedCalls := by decide +kernel
  have hends : ∀ k < 4, EndsOnce ((Cursor.start { stage := .compute }).written interleavedCalls k) := by
    decide +kernel
  obtain ⟨f, starts, hf, hstarts, -, hblock, hnodup, hlinks⟩ :=
    finish_agrees { stage := .compute } "main" hcalls hends
  obtain ⟨s, hs, hsum, -⟩ := hblock 2 (by decide)
  exact ⟨hcalls, hends, f, starts, hf, hstarts, hs.trans (congrArg some hsum), hnodup,
    (hlinks 2 1).2 ⟨_, rfl, by decide⟩⟩

end FunctionBuilder

end Lockstep
