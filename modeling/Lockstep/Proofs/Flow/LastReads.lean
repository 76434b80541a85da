import Lockstep.Proofs.Analysis
import Lockstep.Proofs.Flow.NextUniform

set_option autoImplicit false

/-! # Last reads

Control can come from a point to the points behind it in its block, and to those of the blocks that
can be reached from there (`Function.Before`). The points that the analysis calls after another one
are among these, but on a cycle they are not all of them. The walk over the instructions keeps a last
read of each identifier from which control does not come to a read of it, if the read is on no cycle
or a uniform block can be reached from it (`FunctionAnalysis.Describes.covers`). -/

namespace Lockstep

/-! ## Points that control comes to -/

/-- The point of an instruction. -/
def Function.pointOf (f : Function) (i : Nat) : Point := ⟨f.blockOf i, i⟩

/-- Control can come from a point to another one by going on. -/
def Function.Before (f : Function) (p q : Point) : Prop :=
  (p.block = q.block ∧ p.instr < q.instr) ∨ Relation.TransGen f.Linked p.block q.block

namespace Function.Before

variable {f : Function} {cf : ControlFlow} {p q r : Point}

theorem trans (hpq : f.Before p q) (hqr : f.Before q r) : f.Before p r := by
  rcases hpq with ⟨hpq, hlt⟩ | hpq
  · rcases hqr with ⟨hqr, hlt'⟩ | hqr
    · exact .inl ⟨hpq.trans hqr, Nat.lt_trans hlt hlt'⟩
    · exact .inr (hpq ▸ hqr)
  · rcases hqr with ⟨hqr, -⟩ | hqr
    · exact .inr (hqr ▸ hpq)
    · exact .inr (hpq.trans hqr)

theorem reach (h : f.Before p q) : Relation.ReflTransGen f.Linked p.block q.block := by
  rcases h with ⟨hblock, -⟩ | h
  · exact hblock ▸ .refl
  · exact h.to_reflTransGen

theorem of_isAfter (hcf : cf = .ofLinks f.blocks.size f.links) (h : q.isAfter p cf) :
    f.Before p q := by
  unfold Point.isAfter at h
  split at h
  · next hblock => exact .inl ⟨hblock.symm, of_decide_eq_true h⟩
  · subst hcf
    exact .inr ((ControlFlow.reach_ofLinks _ _ _ _).1 h)

/-- Between different blocks, and in a block on no cycle, the analysis knows all these points. -/
theorem isAfter (hcf : cf = .ofLinks f.blocks.size f.links)
    (hq : p.block = q.block → ¬ cf.isLoop q.block) (h : f.Before p q) : q.isAfter p cf := by
  subst hcf
  unfold Point.isAfter
  by_cases hblock : p.block = q.block
  · rw [if_pos hblock.symm]
    rcases h with ⟨-, hlt⟩ | hreach
    · exact decide_eq_true hlt
    · exact absurd ((ControlFlow.isLoop_ofLinks _ _ _).2 (hblock ▸ hreach)) (hq hblock)
  · rw [if_neg fun heq => hblock heq.symm]
    exact (ControlFlow.reach_ofLinks _ _ _ _).2 (h.resolve_left fun h => hblock h.1)

end Function.Before

/-- A block is on no cycle, or a uniform block can be reached from it. -/
def ControlFlow.LeadsOut (cf : ControlFlow) (block : Nat) : Prop :=
  cf.isLoop block → ∃ u, cf.isUniform u ∧ cf.reach.holds block u

theorem ControlFlow.LeadsOut.of_loops {cf : ControlFlow} (h : cf.loops = []) (block : Nat) :
    cf.LeadsOut block := by
  intro hloop
  unfold isLoop at hloop
  rw [h] at hloop
  cases hloop

/-- A point that is kept for a read: control does not come from it to the read, and it is after all
    the points that control comes from. -/
structure Point.Outlasts (f : Function) (cf : ControlFlow) (upTo here : Point) : Prop where
  not_before : ¬ f.Before upTo here
  after : ∀ last, f.Before last here → upTo.isAfter last cf

/-- How far the operands of an instruction are kept is far enough for it to read them. -/
theorem LiveRanges.outlasts_reach {f : Function} {cf : ControlFlow} {starts : List Nat}
    {count block i : Nat} (hcf : cf = .ofLinks f.blocks.size f.links) (hi : i < count)
    (hout : cf.LeadsOut block) (instr : Instr) :
    (reach cf starts count block i instr).Outlasts f cf ⟨block, i⟩ := by
  unfold reach
  by_cases hloop : cf.isLoop block
  · rw [if_pos hloop]
    obtain ⟨u, hu, hbu⟩ := hout hloop
    subst hcf
    -- the next uniform block lies behind the cycle, and it is on none itself
    obtain ⟨⟨-, hno⟩, hreach⟩ := ControlFlow.nextUniform_ofLinks hu hbu
    constructor
    · intro hbefore
      exact hno (Relation.TransGen.trans_right hbefore.reach hreach)
    · intro last hbefore
      refine Function.Before.isAfter rfl (fun _ hcycle => ?_)
        (.inr (Relation.TransGen.trans_right hbefore.reach hreach))
      exact hno ((ControlFlow.isLoop_ofLinks _ _ _).1 hcycle)
  · rw [if_neg hloop]
    have hno : ¬ Relation.TransGen f.Linked block block := fun hcycle =>
      hloop (hcf ▸ (ControlFlow.isLoop_ofLinks _ _ _).2 hcycle)
    generalize hn : (if instr.op = .alloca then count else i + 1) = n
    have hlt : i < n := by
      split at hn <;> omega
    constructor
    · rintro (⟨-, hle⟩ | hcycle)
      · exact Nat.lt_asymm hlt hle
      · exact hno hcycle
    · intro last hbefore
      refine Function.Before.isAfter hcf (fun _ => hloop) ?_
      exact hbefore.trans (.inl ⟨rfl, hlt⟩)

/-! ## Reads -/

/-- The identifiers that an instruction reads where it stands. A marker reads nothing, and a phi node
    reads where control comes from. -/
def Instr.reads (i : Instr) : List Id :=
  if i.isNop || i.op = .phi then [] else i.args.filterMap Operand.id?

theorem Instr.mem_reads {i : Instr} {id : Id} :
    id ∈ i.reads ↔ ¬ i.isNop ∧ i.op ≠ .phi ∧ .ref id ∈ i.args := by
  have hid : ∀ o : Operand, o.id? = some id ↔ o = .ref id := by
    intro o
    cases o <;> simp [Operand.id?]
  unfold reads
  by_cases hnop : i.isNop
  · simp [hnop]
  · by_cases hphi : i.op = .phi
    · simp [hphi]
    · simp [hnop, hphi, hid]

namespace LiveRanges

/-- From the last read of an identifier that is known control does not come to a read of it. -/
def Covers (f : Function) (s : LiveRanges) (id : Id) (here : Point) : Prop :=
  ∃ last, s.lastRead? id = some last ∧ ¬ f.Before last here

/-- The walk stays in its block, and covers what it has covered. -/
structure Extends (f : Function) (s s' : LiveRanges) : Prop where
  block : s'.block = s.block
  covers : ∀ id here, s.Covers f id here → s'.Covers f id here

variable {f : Function} {cf : ControlFlow} {p : Program} {s s' : LiveRanges} {id : Id}
  {upTo here : Point}

theorem Extends.refl (f : Function) (s : LiveRanges) : Extends f s s := ⟨rfl, fun _ _ h => h⟩

theorem Extends.trans {s'' : LiveRanges} (h : Extends f s s') (h' : Extends f s' s'') :
    Extends f s s'' :=
  ⟨h'.block.trans h.block, fun id here hs => h'.covers id here (h.covers id here hs)⟩

theorem lastRead?_reference (s : LiveRanges) (id id' : Id) :
    (s.reference id').lastRead? id = s.lastRead? id := by
  unfold reference
  split <;> rfl

theorem extends_reference (f : Function) (s : LiveRanges) (id : Id) :
    Extends f s (s.reference id) := by
  constructor
  · unfold reference
    split <;> rfl
  · intro id' here h
    unfold Covers
    rw [lastRead?_reference]
    exact h

theorem lastRead?_of_setLastRead {id' : Id} (h : s.setLastRead id' upTo = .ok s') :
    s'.lastRead? id = if id = id' then some upTo else s.lastRead? id := by
  unfold setLastRead at h
  split at h
  · next hlt =>
      cases h
      unfold lastRead?
      by_cases hid : id = id'
      · subst hid
        simp [hlt]
      · have hindex : id'.index ≠ id.index := fun heq => hid (congrArg Id.mk heq.symm)
        rw [if_neg hid]
        simp [Array.getElem?_setIfInBounds_ne hindex]
  · cases h

/-- To set a later last read keeps what is covered: what control comes to from the new one, it comes
    to from the old one. -/
theorem extends_setLastRead (hlater : ∀ last, s.lastRead? id = some last → f.Before last upTo)
    (hs : s.setLastRead id upTo = .ok s') : Extends f s s' := by
  constructor
  · unfold setLastRead at hs
    split at hs
    · cases hs
      rfl
    · cases hs
  · intro id' here ⟨last, hlast, hno⟩
    unfold Covers
    rw [lastRead?_of_setLastRead hs]
    by_cases hid : id' = id
    · subst hid
      rw [if_pos rfl]
      exact ⟨upTo, rfl, fun hbefore => hno ((hlater last hlast).trans hbefore)⟩
    · rw [if_neg hid]
      exact ⟨last, hlast, hno⟩

theorem extends_define (hs : define cf s id here = .ok s') : Extends f s s' := by
  unfold define at hs
  split at hs
  · cases hs
  · refine (extends_reference f s id).trans ?_
    dsimp only at hs
    split at hs
    · next hnone =>
        refine extends_setLastRead (fun last hlast => ?_) hs
        rw [hnone] at hlast
        cases hlast
    · split at hs
      · cases hs
        exact .refl f _
      · cases hs

/-- A read that the walk notes is covered, if its operands are kept for it. -/
theorem read_ref (hcf : cf = .ofLinks f.blocks.size f.links)
    (hs : read p cf upTo s (.ref id) = .ok s') :
    Extends f s s' ∧ ∀ here, upTo.Outlasts f cf here → s'.Covers f id here := by
  rw [read] at hs
  generalize hs₁ : (if (p.global? id).isSome then s.reference id else s) = s₁ at hs
  have hextends : Extends f s s₁ := by
    subst hs₁
    split
    · exact extends_reference f s id
    · exact .refl f s
  have hset : ∀ here, s₁.setLastRead id upTo = .ok s' → upTo.Outlasts f cf here →
      s'.Covers f id here := by
    intro here hs hupTo
    exact ⟨upTo, by rw [lastRead?_of_setLastRead hs, if_pos rfl], hupTo.not_before⟩
  split at hs
  · next hnone =>
      refine ⟨hextends.trans (extends_setLastRead (fun last hlast => ?_) hs), fun here => hset here hs⟩
      rw [hnone] at hlast
      cases hlast
  · next furthest hfurthest =>
      split at hs
      · next hafter =>
          refine ⟨hextends.trans (extends_setLastRead (fun last hlast => ?_) hs),
            fun here => hset here hs⟩
          rw [hfurthest] at hlast
          cases hlast
          exact .of_isAfter hcf hafter
      · next hafter =>
          cases hs
          exact ⟨hextends, fun here hupTo =>
            ⟨furthest, hfurthest, fun hbefore => hafter (hupTo.after furthest hbefore)⟩⟩

theorem extends_read (hcf : cf = .ofLinks f.blocks.size f.links) {o : Operand}
    (hs : read p cf upTo s o = .ok s') : Extends f s s' := by
  cases o with
  | ref id => exact (read_ref hcf hs).1
  | const c =>
      cases hs
      exact .refl f s
  | block b =>
      cases hs
      exact .refl f s
  | undef ty =>
      cases hs
      exact .refl f s

/-- Of several operands each one that is an identifier is covered. -/
theorem foldlM_read (hcf : cf = .ofLinks f.blocks.size f.links) {args : List Operand}
    (hs : args.foldlM (read p cf upTo) s = .ok s') :
    Extends f s s' ∧ ∀ here, upTo.Outlasts f cf here → ∀ id, .ref id ∈ args → s'.Covers f id here := by
  induction args generalizing s with
  | nil =>
      cases hs
      exact ⟨.refl f _, fun here _ id hid => nomatch hid⟩
  | cons o rest ih =>
      rw [List.foldlM_cons] at hs
      obtain ⟨s₁, ho, hrest⟩ := ok_of_bind hs
      obtain ⟨hextends, hcovers⟩ := ih hrest
      refine ⟨(extends_read hcf ho).trans hextends, ?_⟩
      intro here hupTo id hid
      rcases List.mem_cons.1 hid with rfl | hid
      · exact hextends.covers id here ((read_ref hcf ho).2 here hupTo)
      · exact hcovers here hupTo id hid

/-! ## The walk -/

variable {starts : List Nat} {i count : Nat} {instr : Instr}

theorem extends_noteResult (hs : noteResult cf i instr s = .ok s') : Extends f s s' := by
  unfold noteResult at hs
  split at hs
  · exact extends_define hs
  · cases hs
    exact .refl f s

/-- The operands of an instruction that are read where it stands are covered there. -/
theorem noteArgs_spec (hcf : cf = .ofLinks f.blocks.size f.links) (hi : i < count)
    (hs : noteArgs p cf starts count i instr s = .ok s') :
    Extends f s s' ∧
      (cf.LeadsOut s.block → ∀ id ∈ instr.reads, s'.Covers f id ⟨s.block, i⟩) := by
  unfold noteArgs at hs
  split at hs
  · next hphi =>
      cases hs
      exact ⟨.refl f s, fun _ id hid => absurd hphi (Instr.mem_reads.1 hid).2.1⟩
  · obtain ⟨hextends, hcovers⟩ := foldlM_read hcf hs
    refine ⟨hextends, fun hout id hid => ?_⟩
    exact hcovers _ (outlasts_reach hcf hi hout instr) id (Instr.mem_reads.1 hid).2.2

theorem block_behind (instr : Instr) (s : LiveRanges) :
    (s.behind instr).block = s.block + if instr.isTerminator then 1 else 0 := by
  unfold behind
  split <;> rfl

theorem covers_behind (instr : Instr) (s : LiveRanges) (id : Id) (here : Point) :
    (s.behind instr).Covers f id here ↔ s.Covers f id here := by
  unfold behind
  split <;> rfl

/-- What the walk does at an instruction: it keeps what is covered, covers what the instruction reads,
    and counts a terminator. -/
theorem note_spec (hcf : cf = .ofLinks f.blocks.size f.links) (hi : i < count)
    (hs : note p cf starts count i instr s = .ok s') :
    (∀ id here, s.Covers f id here → s'.Covers f id here) ∧
      (cf.LeadsOut s.block → ∀ id ∈ instr.reads, s'.Covers f id ⟨s.block, i⟩) ∧
      s'.block = s.block + if instr.isTerminator then 1 else 0 := by
  unfold note at hs
  split at hs
  · next hnop =>
      cases hs
      refine ⟨fun _ _ h => h, fun _ id hid => absurd hnop (Instr.mem_reads.1 hid).1, ?_⟩
      rw [if_neg (Instr.not_isTerminator_of_isNop hnop), Nat.add_zero]
  · obtain ⟨s₁, hresult, hs⟩ := ok_of_bind hs
    obtain ⟨s₂, hargs, hs⟩ := ok_of_bind hs
    cases hs
    have h₁ : Extends f s s₁ := extends_noteResult hresult
    obtain ⟨h₂, hreads⟩ := noteArgs_spec hcf hi hargs
    refine ⟨?_, ?_, ?_⟩
    · intro id here h
      exact (covers_behind instr s₂ id here).2 (h₂.covers id here (h₁.covers id here h))
    · intro hout id hid
      exact (covers_behind instr s₂ id _).2 (h₁.block ▸ hreads (h₁.block ▸ hout) id hid)
    · rw [block_behind, h₂.block, h₁.block]

/-- The walk covers what every instruction reads where it stands. -/
theorem walk_spec (hcf : cf = .ofLinks f.blocks.size f.links) {instrs : List Instr}
    (hlength : i + instrs.length ≤ count)
    (hinstrs : ∀ n instr, instrs[n]? = some instr → f.instrs[i + n]? = some instr)
    (hblock : s.block = f.blockOf i) (hs : walk p cf starts count i instrs s = .ok s') :
    (∀ id here, s.Covers f id here → s'.Covers f id here) ∧
      ∀ n instr, instrs[n]? = some instr → cf.LeadsOut (f.blockOf (i + n)) →
        ∀ id ∈ instr.reads, s'.Covers f id (f.pointOf (i + n)) := by
  induction instrs generalizing i s with
  | nil =>
      cases hs
      exact ⟨fun _ _ h => h, fun n instr h => by simp at h⟩
  | cons instr rest ih =>
      rw [walk] at hs
      obtain ⟨s₁, hnote, hs⟩ := ok_of_bind hs
      rw [List.length_cons] at hlength
      obtain ⟨hkeeps, hreads, hblock₁⟩ := note_spec hcf (by omega) hnote
      have hfirst : f.instrs[i]? = some instr := hinstrs 0 instr rfl
      obtain ⟨hrest, hcovers⟩ := ih (i := i + 1) (by omega)
        (fun n instr' h => by
          rw [Nat.add_assoc, Nat.add_comm 1 n]
          exact hinstrs (n + 1) instr' h)
        -- the walk counts terminators, and so do blocks
        (by rw [hblock₁, hblock, Function.blockOf_succ hfirst]) hs
      refine ⟨fun id here h => hrest id here (hkeeps id here h), ?_⟩
      intro n instr' h hout id hid
      cases n with
      | zero =>
          cases h
          rw [Nat.add_zero] at hout ⊢
          have hcovered := hreads (hblock ▸ hout) id hid
          rw [hblock] at hcovered
          exact hrest id _ hcovered
      | succ n =>
          rw [show i + (n + 1) = i + 1 + n by omega] at hout ⊢
          exact hcovers n instr' h hout id hid

end LiveRanges

/-- From the last read of an identifier that the analysis holds control does not come to a read of it,
    if the read is on no cycle or a uniform block can be reached from it. -/
theorem FunctionAnalysis.Describes.covers {p : Program} {f : Function} {a : FunctionAnalysis}
    (h : a.Describes p f) {j : Nat} {i : Instr} (hi : f.instrs[j]? = some i)
    (hout : a.flow.LeadsOut (f.blockOf j)) {id : Id} (hid : id ∈ i.reads) :
    ∃ last, a.lastRead? id = some last ∧ ¬ f.Before last (f.pointOf j) := by
  obtain ⟨s, hwalk, hreads⟩ := h.lastReads
  obtain ⟨-, hcovers⟩ := LiveRanges.walk_spec h.flow (by simp) (fun n instr hn => by
    rwa [Nat.zero_add, ← Array.getElem?_toList]) rfl hwalk
  rw [← Array.getElem?_toList] at hi
  have hj := hcovers j i hi ((Nat.zero_add j).symm ▸ hout) id hid
  rw [Nat.zero_add] at hj
  obtain ⟨last, hlast, hno⟩ := hj
  refine ⟨last, ?_, hno⟩
  rw [lastRead?, ← hreads]
  exact hlast

end Lockstep
