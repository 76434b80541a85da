import Lockstep.Proofs.Flow.LastReads

set_option autoImplicit false

/-! # The identifiers of an analysed function

A function is analysed only if the identifiers that its instructions define and read are among those
of the program (`FunctionAnalysis.Describes.named`). Markers are not looked at, and neither are the
operands of phi nodes. -/

namespace Lockstep

/-- The identifiers that an instruction defines, and those that it reads itself. -/
def Instr.names (i : Instr) : List Id := if i.isNop then [] else i.result.toList ++ i.reads

namespace LiveRanges

variable {p : Program} {cf : ControlFlow} {s s' : LiveRanges} {id : Id} {here upTo : Point}
  {starts : List Nat} {count i : Nat} {instr : Instr}

/-- As much is known of as many identifiers, and some are among them. -/
structure Knows (ids : List Id) (s s' : LiveRanges) : Prop where
  size : s'.lastReads.size = s.lastReads.size
  mem : ∀ id ∈ ids, id.index < s.lastReads.size

theorem Knows.refl (s : LiveRanges) : Knows [] s s := ⟨rfl, by simp⟩

theorem Knows.trans {ids ids' : List Id} {s'' : LiveRanges} (h : Knows ids s s')
    (h' : Knows ids' s' s'') : Knows (ids ++ ids') s s'' := by
  refine ⟨h'.size.trans h.size, fun id hid => ?_⟩
  rcases List.mem_append.1 hid with hid | hid
  · exact h.mem id hid
  · exact h.size ▸ h'.mem id hid

theorem lt_of_lastRead {last : Point} (h : s.lastRead? id = some last) :
    id.index < s.lastReads.size := by
  obtain ⟨o, ho, -⟩ := Option.bind_eq_some_iff.1 (show s.lastReads[id.index]?.join = some last from h)
  exact (Array.getElem?_eq_some_iff.1 ho).1

theorem knows_of_lastRead {last : Point} (h : s.lastRead? id = some last) : Knows [id] s s :=
  ⟨rfl, by simpa using lt_of_lastRead h⟩

theorem knows_reference (s : LiveRanges) (id : Id) : Knows [] s (s.reference id) := by
  refine ⟨?_, by simp⟩
  unfold reference
  split <;> rfl

theorem knows_setLastRead (h : s.setLastRead id upTo = .ok s') : Knows [id] s s' := by
  unfold setLastRead at h
  split at h
  · next hid =>
      cases h
      exact ⟨Array.size_setIfInBounds, by simpa using hid⟩
  · cases h

theorem knows_define (h : define cf s id here = .ok s') : Knows [id] s s' := by
  unfold define at h
  split at h
  · cases h
  · dsimp only at h
    split at h
    · exact (knows_reference s id).trans (knows_setLastRead h)
    · next hread =>
        split at h
        · cases h
          exact (knows_reference s id).trans (knows_of_lastRead hread)
        · cases h

theorem knows_read {o : Operand} (h : read p cf upTo s o = .ok s') :
    Knows (o.id?.toList) s s' := by
  cases o with
  | ref id =>
      rw [read] at h
      generalize hs₁ : (if (p.global? id).isSome then s.reference id else s) = s₁ at h
      have h₁ : Knows [] s s₁ := by
        subst hs₁
        split
        · exact knows_reference s id
        · exact .refl s
      split at h
      · exact h₁.trans (knows_setLastRead h)
      · next hread =>
          split at h
          · exact h₁.trans (knows_setLastRead h)
          · cases h
            exact h₁.trans (knows_of_lastRead hread)
  | _ =>
      cases h
      exact .refl _

theorem knows_foldlM_read {args : List Operand} (h : args.foldlM (read p cf upTo) s = .ok s') :
    Knows (args.filterMap Operand.id?) s s' := by
  induction args generalizing s with
  | nil =>
      cases h
      exact .refl _
  | cons o args ih =>
      rw [List.foldlM_cons] at h
      obtain ⟨s₁, h₁, h⟩ := ok_of_bind h
      have hknows := (knows_read h₁).trans (ih h)
      rw [List.filterMap_cons]
      cases ho : o.id? with
      | none =>
          rw [ho] at hknows
          exact hknows
      | some id =>
          rw [ho] at hknows
          exact hknows

theorem knows_noteResult (h : noteResult cf i instr s = .ok s') : Knows instr.result.toList s s' := by
  unfold noteResult at h
  split at h
  · next id hid =>
      rw [hid]
      exact knows_define h
  · next hid =>
      cases h
      rw [hid]
      exact .refl s

theorem knows_noteArgs (hnop : ¬ instr.isNop) (h : noteArgs p cf starts count i instr s = .ok s') :
    Knows instr.reads s s' := by
  unfold noteArgs at h
  unfold Instr.reads
  split at h
  · next hphi =>
      cases h
      simpa [hphi] using Knows.refl s
  · next hphi => simpa [hphi, hnop] using knows_foldlM_read h

theorem lastReads_behind (instr : Instr) (s : LiveRanges) : (s.behind instr).lastReads = s.lastReads := by
  unfold behind
  split <;> rfl

theorem knows_note (h : note p cf starts count i instr s = .ok s') : Knows instr.names s s' := by
  unfold note at h
  unfold Instr.names
  split at h
  · next hnop =>
      cases h
      rw [if_pos hnop]
      exact .refl s
  · next hnop =>
      rw [if_neg hnop]
      obtain ⟨s₁, h₁, h⟩ := ok_of_bind h
      obtain ⟨s₂, h₂, h⟩ := ok_of_bind h
      cases h
      obtain ⟨hsize, hmem⟩ := (knows_noteResult h₁).trans (knows_noteArgs hnop h₂)
      exact ⟨(congrArg Array.size (lastReads_behind instr s₂)).trans hsize, hmem⟩

theorem knows_walk {instrs : List Instr} (h : walk p cf starts count i instrs s = .ok s') :
    s'.lastReads.size = s.lastReads.size ∧
      ∀ instr ∈ instrs, ∀ id ∈ instr.names, id.index < s.lastReads.size := by
  induction instrs generalizing s i with
  | nil =>
      cases h
      exact ⟨rfl, by simp⟩
  | cons instr rest ih =>
      rw [walk] at h
      obtain ⟨s₁, h₁, h⟩ := ok_of_bind h
      have hknows := knows_note h₁
      obtain ⟨hsize, hrest⟩ := ih h
      refine ⟨hsize.trans hknows.size, ?_⟩
      intro instr' hinstr
      rcases List.mem_cons.1 hinstr with rfl | hinstr
      · exact hknows.mem
      · exact hknows.size ▸ hrest instr' hinstr

end LiveRanges

/-- The instructions of an analysed function name identifiers of the program. -/
theorem FunctionAnalysis.Describes.named {p : Program} {f : Function} {a : FunctionAnalysis}
    (h : a.Describes p f) {j : Nat} {i : Instr} (hi : f.instrs[j]? = some i) {id : Id}
    (hid : id ∈ i.names) : id.index < p.idCount := by
  obtain ⟨s, hwalk, -⟩ := h.lastReads
  obtain ⟨-, hnames⟩ := LiveRanges.knows_walk hwalk
  have hmem : i ∈ f.instrs.toList := Array.mem_toList_iff.2 (Array.mem_of_getElem? hi)
  simpa [initialRanges] using hnames i hmem id hid

/-! ## Reads by phi nodes -/

theorem mem_of_notePhiArgs {reads reads' : Array (List Id)} {args : List Operand}
    (h : notePhiArgs reads args = .ok reads') {b : Nat} {id : Id}
    (hid : id ∈ reads'[b]?.getD []) : id ∈ reads[b]?.getD [] ∨ .ref id ∈ args := by
  fun_induction notePhiArgs reads args with
  | case1 reads =>
      cases h
      exact .inl hid
  | case2 => cases h
  | case3 => cases h
  | case4 reads id' source rest b' hsource hb' ih =>
      rcases ih h with hid | hid
      · rw [Array.getElem?_modify] at hid
        split at hid
        · next hb =>
            subst hb
            cases hreads : reads[b']? with
            | none => simp [hreads] at hid
            | some ids =>
                rw [hreads, Option.map_some, Option.getD_some] at hid
                split at hid
                · exact .inl hid
                · rcases List.mem_append.1 hid with hid | hid
                  · exact .inl hid
                  · rw [List.mem_singleton.1 hid]
                    exact .inr (List.mem_cons_self ..)
        · exact .inl hid
      · exact .inr (List.mem_cons_of_mem _ (List.mem_cons_of_mem _ hid))
  | case5 => cases h
  | case6 reads o source rest _ ih =>
      exact (ih h).imp_right fun hid => List.mem_cons_of_mem _ (List.mem_cons_of_mem _ hid)

theorem mem_of_foldlM_notePhiArgs {phis : List Instr} {reads reads' : Array (List Id)}
    (h : phis.foldlM (fun reads i => notePhiArgs reads i.args) reads = .ok reads') {b : Nat} {id : Id}
    (hid : id ∈ reads'[b]?.getD []) : id ∈ reads[b]?.getD [] ∨ ∃ i ∈ phis, .ref id ∈ i.args := by
  induction phis generalizing reads with
  | nil =>
      cases h
      exact .inl hid
  | cons i phis ih =>
      rw [List.foldlM_cons] at h
      obtain ⟨reads₁, h₁, h⟩ := ok_of_bind h
      rcases ih h with hid | ⟨j, hj, hid⟩
      · exact (mem_of_notePhiArgs h₁ hid).imp_right fun hid => ⟨i, List.mem_cons_self .., hid⟩
      · exact .inr ⟨j, List.mem_cons_of_mem _ hj, hid⟩

/-- What is read when control leaves a block is read by a phi node. -/
theorem FunctionAnalysis.phi_of_phiReads {p : Program} {index offset : Nat} {a : FunctionAnalysis}
    (h : ofFunction p index offset = .ok a) {b : Nat} {id : Id} (hid : id ∈ a.phiReadsOf b) :
    ∃ f i, p.functions[index]? = some f ∧ i ∈ f.instrs ∧ i.op = .phi ∧ .ref id ∈ i.args := by
  obtain ⟨f, hf, -, hphi⟩ := ofFunction_ok h
  rcases mem_of_foldlM_notePhiArgs hphi hid with hid | ⟨i, hi, harg⟩
  · rw [Array.getElem?_replicate] at hid
    split at hid <;> simp at hid
  · obtain ⟨hi, hop⟩ := List.mem_filter.1 hi
    exact ⟨f, i, hf, Array.mem_toList_iff.1 hi, eq_of_beq hop, harg⟩

end Lockstep
