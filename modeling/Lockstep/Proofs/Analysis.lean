import Lockstep.Proofs.Blocks

set_option autoImplicit false

/-! # What an analysis holds

The analyses of a program belong to its functions (`ofFunction_of_ofProgram`), and each holds the
flow graph, the block starts and the last reads of its function (`Describes`). It numbers the instructions
of its function as they stand in the listing of the program (`listing_of_ofProgram`). -/

namespace Lockstep

/-- The instructions of functions in the order of their numbers. Functions without a body have none. -/
def Function.listing (fs : List Function) : List Instr :=
  (fs.filter fun f => !f.isExternal).flatMap fun f => f.instrs.toList

/-- The instructions of a program in the order of their numbers. -/
def Program.listing (p : Program) : List Instr := Function.listing p.functions.toList

namespace FunctionAnalysis

variable {p : Program} {index offset : Nat} {a : FunctionAnalysis}

/-- What the walk over a function's instructions begins with. -/
def initialRanges (p : Program) : LiveRanges :=
  { referenced := [], lastReads := Array.replicate p.idCount none, block := 0 }

/-- An analysis is that of a function. -/
structure Describes (p : Program) (f : Function) (a : FunctionAnalysis) : Prop where
  starts : f.blockStarts = .ok a.starts
  flow : a.flow = .ofLinks f.blocks.size f.links
  lastReads : ∃ s, LiveRanges.walk p a.flow a.starts f.instrs.size 0 f.instrs.toList
    (initialRanges p) = .ok s ∧ s.lastReads = a.lastReads

/-- What the analysis of a function is put together from. -/
theorem ofFunction_ok (h : ofFunction p index offset = .ok a) :
    ∃ f, p.functions[index]? = some f ∧ a.Describes p f ∧
      (f.instrs.toList.filter fun i => i.op == .phi).foldlM
        (fun reads i => notePhiArgs reads i.args) (Array.replicate f.blocks.size []) = .ok a.phiReads := by
  unfold ofFunction at h
  split at h
  · next f hf =>
      obtain ⟨starts, hstarts, h⟩ := ok_of_bind h
      obtain ⟨s, hs, h⟩ := ok_of_bind h
      split at h
      · cases h
      · obtain ⟨phiReads, hphi, h⟩ := ok_of_bind h
        cases h
        exact ⟨f, hf, ⟨hstarts, rfl, s, hs, rfl⟩, hphi⟩
  · cases h

theorem describes_of_ofFunction (h : ofFunction p index offset = .ok a) :
    ∃ f, p.functions[index]? = some f ∧ a.Describes p f := by
  obtain ⟨f, hf, hdescribes, -⟩ := ofFunction_ok h
  exact ⟨f, hf, hdescribes⟩

theorem offset_of_ofFunction (h : ofFunction p index offset = .ok a) : a.offset = offset := by
  unfold ofFunction at h
  split at h
  · obtain ⟨starts, -, h⟩ := ok_of_bind h
    obtain ⟨s, -, h⟩ := ok_of_bind h
    split at h
    · cases h
    · obtain ⟨phiReads, -, h⟩ := ok_of_bind h
      cases h
      rfl
  · cases h

/-- The analyses are those of the functions, each numbered from the count of instructions before it on. -/
theorem ofFunction_of_ofFunctions {fs : List Function} {as : List (Option FunctionAnalysis)}
    (h : ofFunctions p index offset fs = .ok as) {j : Nat} (ha : as[j]? = some (some a)) :
    ∃ f before after, fs[j]? = some f ∧ Function.listing fs = before ++ (f.instrs.toList ++ after) ∧
      ofFunction p (index + j) (offset + before.length) = .ok a := by
  induction fs generalizing index offset as j with
  | nil =>
      cases h
      simp at ha
  | cons f rest ih =>
      rw [ofFunctions] at h
      split at h
      · next hexternal =>
          obtain ⟨as', has', h⟩ := ok_of_bind h
          cases h
          cases j with
          | zero => simp at ha
          | succ j =>
              obtain ⟨g, before, after, hg, hinstrs, hok⟩ := ih has' ha
              refine ⟨g, before, after, hg, ?_, by rwa [show index + (j + 1) = index + 1 + j by omega]⟩
              rw [Function.listing, List.filter_cons_of_neg (by simpa using hexternal)]
              exact hinstrs
      · next hbody =>
          obtain ⟨a', ha', h⟩ := ok_of_bind h
          obtain ⟨as', has', h⟩ := ok_of_bind h
          cases h
          have hfirst : Function.listing (f :: rest) = f.instrs.toList ++ Function.listing rest := by
            rw [Function.listing, List.filter_cons_of_pos (by simpa using hbody)]
            rfl
          cases j with
          | zero =>
              cases ha
              exact ⟨f, [], _, rfl, hfirst, ha'⟩
          | succ j =>
              obtain ⟨g, before, after, hg, hinstrs, hok⟩ := ih has' ha
              refine ⟨g, f.instrs.toList ++ before, after, hg, by rw [hfirst, hinstrs, List.append_assoc], ?_⟩
              rw [show index + (j + 1) = index + 1 + j by omega, List.length_append, Array.length_toList,
                ← Nat.add_assoc]
              exact hok

theorem listing_of_ofProgram {as : Analyses} (h : ofProgram p = .ok as) (ha : as.of? index = some a) :
    ∃ f before after, p.functions[index]? = some f ∧ p.listing = before ++ (f.instrs.toList ++ after) ∧
      ofFunction p index before.length = .ok a := by
  unfold ofProgram at h
  obtain ⟨list, hlist, h⟩ := ok_of_bind h
  cases h
  unfold Analyses.of? at ha
  rw [List.getElem?_toArray] at ha
  obtain ⟨f, before, after, hf, hinstrs, hok⟩ :=
    ofFunction_of_ofFunctions hlist (Option.join_eq_some_iff.1 ha)
  rw [Array.getElem?_toList] at hf
  rw [Nat.zero_add, Nat.zero_add] at hok
  exact ⟨f, before, after, hf, hinstrs, hok⟩

/-- The analyses of a program are those of its functions. -/
theorem ofFunction_of_ofProgram {as : Analyses} (h : ofProgram p = .ok as)
    (ha : as.of? index = some a) : ∃ offset, ofFunction p index offset = .ok a := by
  obtain ⟨_, before, _, -, -, hok⟩ := listing_of_ofProgram h ha
  exact ⟨before.length, hok⟩

end FunctionAnalysis

/-- The function that a program enters, and its analysis. -/
structure Program.Enters (p : Program) (as : Analyses) (f : Function) (a : FunctionAnalysis) :
    Prop where
  function : p.functions[p.entry]? = some f
  analysis : as.of? p.entry = some a
  describes : a.Describes p f

/-- The function that a program enters, and its analysis. What its terminators say agrees with what
    its blocks say. -/
structure Program.Entry (p : Program) (as : Analyses) (f : Function) (a : FunctionAnalysis) :
    Prop where
  function : p.functions[p.entry]? = some f
  analysis : as.of? p.entry = some a
  describes : a.Describes p f
  targets : f.TargetsAgree

theorem Program.Entry.enters {p : Program} {as : Analyses} {f : Function} {a : FunctionAnalysis}
    (h : p.Entry as f a) : p.Enters as f a :=
  ⟨h.function, h.analysis, h.describes⟩

end Lockstep
