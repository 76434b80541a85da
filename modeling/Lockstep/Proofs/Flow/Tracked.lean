import Lockstep.Proofs.Flow.Names
import Mathlib.Data.List.Nodup
import Mathlib.Data.List.Perm.Subperm

set_option autoImplicit false

/-! # What the walk keeps track of

The walk over the instructions of a function references the identifiers that it defines and the globals
that it reads, and has a last read for all that it defines or reads (`LiveRanges.adds_walk`). What is
referenced has a last read. So there are as many of one as of the other exactly if nothing else has
been read (`LiveRanges.size_eq_iff`). -/

namespace Lockstep

/-- The identifier that an instruction defines. A marker defines nothing. -/
def Instr.defined? (i : Instr) : Option Id := if i.isNop then none else i.result

namespace LiveRanges

variable {p : Program} {cf : ControlFlow} {s s' : LiveRanges} {id : Id} {here upTo : Point}
  {starts : List Nat} {count i : Nat} {instr : Instr}

/-! ## What is added -/

/-- What is referenced and what has a last read afterwards, and nothing is referenced twice. -/
structure Adds (new tracked : Id → Prop) (s s' : LiveRanges) : Prop where
  referenced : ∀ id, id ∈ s'.referenced ↔ id ∈ s.referenced ∨ new id
  lastRead : ∀ id, (s'.lastRead? id).isSome ↔ (s.lastRead? id).isSome ∨ tracked id
  nodup : s.referenced.Nodup → s'.referenced.Nodup

namespace Adds

variable {new new' tracked tracked' : Id → Prop} {s'' : LiveRanges}

theorem refl (s : LiveRanges) : Adds (fun _ => False) (fun _ => False) s s :=
  ⟨by simp, by simp, id⟩

theorem trans (h : Adds new tracked s s') (h' : Adds new' tracked' s' s'') :
    Adds (fun id => new id ∨ new' id) (fun id => tracked id ∨ tracked' id) s s'' := by
  refine ⟨fun id => ?_, fun id => ?_, fun hs => h'.nodup (h.nodup hs)⟩
  · rw [h'.referenced, h.referenced, or_assoc]
  · rw [h'.lastRead, h.lastRead, or_assoc]

theorem congr (h : Adds new tracked s s') (hnew : ∀ id, new id ↔ new' id)
    (htracked : ∀ id, tracked id ↔ tracked' id) : Adds new' tracked' s s' := by
  refine ⟨fun id => ?_, fun id => ?_, h.nodup⟩
  · rw [h.referenced, hnew]
  · rw [h.lastRead, htracked]

end Adds

theorem adds_reference (s : LiveRanges) (id : Id) :
    Adds (· = id) (fun _ => False) s (s.reference id) := by
  refine ⟨fun id' => ?_, fun id' => ?_, fun hs => ?_⟩
  · unfold reference
    split
    · next h =>
        have hmem : id ∈ s.referenced := List.contains_iff_mem.1 h
        exact ⟨.inl, fun h => h.elim (fun h => h) fun heq => heq ▸ hmem⟩
    · rw [List.mem_cons, or_comm]
  · simp [lastRead?_reference]
  · unfold reference
    split
    · exact hs
    · next h => exact List.nodup_cons.2 ⟨fun hmem => h (List.contains_iff_mem.2 hmem), hs⟩

theorem referenced_setLastRead (h : s.setLastRead id upTo = .ok s') : s'.referenced = s.referenced := by
  unfold setLastRead at h
  split at h <;> cases h
  rfl

theorem adds_setLastRead (h : s.setLastRead id upTo = .ok s') :
    Adds (fun _ => False) (· = id) s s' := by
  refine ⟨fun id' => ?_, fun id' => ?_, fun hs => ?_⟩
  · simp [referenced_setLastRead h]
  · rw [lastRead?_of_setLastRead h]
    split <;> simp [*]
  · rwa [referenced_setLastRead h]

/-- A last read that is there already stays. -/
theorem adds_of_lastRead {last : Point} (h : s.lastRead? id = some last) :
    Adds (fun _ => False) (· = id) s s := by
  refine ⟨by simp, fun id' => ⟨.inl, fun h' => h'.elim (fun h => h) ?_⟩, fun hs => hs⟩
  rintro rfl
  simp [h]

theorem adds_define (h : define cf s id here = .ok s') : Adds (· = id) (· = id) s s' := by
  unfold define at h
  split at h
  · cases h
  · dsimp only at h
    split at h
    · exact ((adds_reference s id).trans (adds_setLastRead h)).congr (by simp) (by simp)
    · next hread =>
        split at h
        · cases h
          exact ((adds_reference s id).trans (adds_of_lastRead hread)).congr (by simp) (by simp)
        · cases h

theorem adds_read {o : Operand} (h : read p cf upTo s o = .ok s') :
    Adds (fun id => .ref id = o ∧ (p.global? id).isSome) (fun id => .ref id = o) s s' := by
  cases o with
  | ref id =>
      rw [read] at h
      generalize hs₁ : (if (p.global? id).isSome then s.reference id else s) = s₁ at h
      have h₁ : Adds (fun id' => id' = id ∧ (p.global? id').isSome) (fun _ => False) s s₁ := by
        subst hs₁
        split
        · next hglobal =>
            refine (adds_reference s id).congr (fun id' => ⟨fun heq => ?_, And.left⟩) (by simp)
            exact ⟨heq, heq ▸ hglobal⟩
        · next hglobal =>
            refine (Adds.refl s).congr (fun id' => ⟨False.elim, fun hnew => ?_⟩) (by simp)
            exact hglobal (hnew.1 ▸ hnew.2)
      have hnew : ∀ id', (id' = id ∧ (p.global? id').isSome) ∨ False ↔
          .ref id' = Operand.ref id ∧ (p.global? id').isSome := by simp
      split at h
      · exact (h₁.trans (adds_setLastRead h)).congr hnew (by simp)
      · next hread =>
          split at h
          · exact (h₁.trans (adds_setLastRead h)).congr hnew (by simp)
          · cases h
            exact (h₁.trans (adds_of_lastRead hread)).congr hnew (by simp)
  | _ =>
      cases h
      exact (Adds.refl _).congr (by simp) (by simp)

theorem adds_foldlM_read {args : List Operand} (h : args.foldlM (read p cf upTo) s = .ok s') :
    Adds (fun id => .ref id ∈ args ∧ (p.global? id).isSome) (fun id => .ref id ∈ args) s s' := by
  induction args generalizing s with
  | nil =>
      cases h
      exact (Adds.refl _).congr (by simp) (by simp)
  | cons o args ih =>
      rw [List.foldlM_cons] at h
      obtain ⟨s₁, h₁, h⟩ := ok_of_bind h
      refine ((adds_read h₁).trans (ih h)).congr (fun id => ?_) (fun id => ?_)
      · rw [List.mem_cons, or_and_right]
      · rw [List.mem_cons]

theorem adds_noteResult (hnop : ¬ instr.isNop) (h : noteResult cf i instr s = .ok s') :
    Adds (instr.defined? = some ·) (instr.defined? = some ·) s s' := by
  unfold noteResult at h
  split at h
  · next id hid =>
      have hdefined : ∀ id', id' = id ↔ instr.defined? = some id' := by
        intro id'
        rw [Instr.defined?, if_neg hnop, hid, Option.some.injEq, eq_comm]
      exact (adds_define h).congr hdefined hdefined
  · next hid =>
      cases h
      have hdefined : ∀ id', False ↔ instr.defined? = some id' := by
        intro id'
        simp [Instr.defined?, hnop, hid]
      exact (Adds.refl s).congr hdefined hdefined

theorem adds_noteArgs (hnop : ¬ instr.isNop) (h : noteArgs p cf starts count i instr s = .ok s') :
    Adds (fun id => id ∈ instr.reads ∧ (p.global? id).isSome) (· ∈ instr.reads) s s' := by
  unfold noteArgs at h
  split at h
  · next hphi =>
      cases h
      exact (Adds.refl s).congr (by simp [Instr.reads, hphi]) (by simp [Instr.reads, hphi])
  · next hphi =>
      have hreads : ∀ id, .ref id ∈ instr.args ↔ id ∈ instr.reads := fun id => by
        simp [Instr.mem_reads, hnop, hphi]
      exact (adds_foldlM_read h).congr (fun id => by rw [hreads]) hreads

theorem adds_behind (instr : Instr) (s : LiveRanges) :
    Adds (fun _ => False) (fun _ => False) s (s.behind instr) := by
  unfold behind
  split
  · exact ⟨by simp, by simp [lastRead?], fun h => h⟩
  · exact Adds.refl s

/-- What an instruction adds: it references what it defines and the globals that it reads, and what it
    defines or reads has a last read. -/
theorem adds_note (h : note p cf starts count i instr s = .ok s') :
    Adds (fun id => instr.defined? = some id ∨ (id ∈ instr.reads ∧ (p.global? id).isSome))
      (fun id => instr.defined? = some id ∨ id ∈ instr.reads) s s' := by
  unfold note at h
  split at h
  · next hnop =>
      cases h
      exact (Adds.refl s).congr (by simp [Instr.defined?, Instr.reads, hnop])
        (by simp [Instr.defined?, Instr.reads, hnop])
  · next hnop =>
      obtain ⟨s₁, h₁, h⟩ := ok_of_bind h
      obtain ⟨s₂, h₂, h⟩ := ok_of_bind h
      cases h
      have hadds := ((adds_noteResult hnop h₁).trans (adds_noteArgs hnop h₂)).trans (adds_behind instr s₂)
      exact hadds.congr (by simp) (by simp)

/-- What the walk adds for all of its instructions. -/
theorem adds_walk {instrs : List Instr} (h : walk p cf starts count i instrs s = .ok s') :
    Adds
      (fun id => ∃ x ∈ instrs, x.defined? = some id ∨ (id ∈ x.reads ∧ (p.global? id).isSome))
      (fun id => ∃ x ∈ instrs, x.defined? = some id ∨ id ∈ x.reads) s s' := by
  induction instrs generalizing s i with
  | nil =>
      cases h
      exact (Adds.refl _).congr (by simp) (by simp)
  | cons instr rest ih =>
      rw [walk] at h
      obtain ⟨s₁, h₁, h⟩ := ok_of_bind h
      exact ((adds_note h₁).trans (ih h)).congr (by simp) (by simp)

/-! ## Counting -/

/-- The identifiers that have a last read. -/
def tracked (s : LiveRanges) : List Id :=
  ((List.range s.lastReads.size).map Id.mk).filter fun id => (s.lastRead? id).isSome

theorem nodup_tracked (s : LiveRanges) : s.tracked.Nodup :=
  (List.nodup_range.map fun _ _ h => Id.mk.inj h).filter _

theorem mem_tracked : id ∈ s.tracked ↔ (s.lastRead? id).isSome := by
  unfold tracked
  rw [List.mem_filter]
  refine ⟨And.right, fun h => ⟨List.mem_map.2 ⟨id.index, List.mem_range.2 ?_, rfl⟩, h⟩⟩
  obtain ⟨last, hlast⟩ := Option.isSome_iff_exists.1 h
  exact lt_of_lastRead hlast

theorem length_tracked (s : LiveRanges) : s.tracked.length = (s.lastReads.filter Option.isSome).size := by
  have hlist : s.lastReads.toList = (List.range s.lastReads.size).map fun i => s.lastRead? ⟨i⟩ := by
    refine List.ext_getElem (by simp) fun i h _ => ?_
    have hi : i < s.lastReads.size := by simpa using h
    simp [lastRead?, Array.getElem?_eq_getElem hi]
  rw [← Array.length_toList, Array.toList_filter, hlist, List.filter_map, List.length_map]
  unfold tracked
  rw [List.filter_map, List.length_map]
  rfl

/-- When all that is referenced has a last read, there are as many of one as of the other exactly if
    all that has a last read is referenced. -/
theorem size_eq_iff (hnodup : s.referenced.Nodup)
    (hsub : ∀ id ∈ s.referenced, (s.lastRead? id).isSome) :
    (s.lastReads.filter Option.isSome).size = s.referenced.length ↔
      ∀ id, (s.lastRead? id).isSome → id ∈ s.referenced := by
  rw [← length_tracked]
  have hle : s.referenced.Subperm s.tracked :=
    hnodup.subperm fun id hid => mem_tracked.2 (hsub id hid)
  constructor
  · intro hlength id hid
    exact (hle.perm_of_length_le hlength.le).symm.subset (mem_tracked.2 hid)
  · intro h
    have hge : s.tracked.Subperm s.referenced :=
      s.nodup_tracked.subperm fun id hid => h id (mem_tracked.1 hid)
    exact Nat.le_antisymm hge.length_le hle.length_le

end LiveRanges

end Lockstep
