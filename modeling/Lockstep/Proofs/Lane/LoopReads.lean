import Lockstep.Proofs.Lane.Scope

set_option autoImplicit false

/-! # Reads in loops

A lane that is in a loop reads an identifier in every round. If a uniform block can be reached from the
loop, the identifier is kept up to there, and it is in scope at each read (`Lane.Run.isLive_of_read`).
From a loop that is only left to different ends no uniform block can be reached: there an identifier
is dropped before it is read (`Lane.loopWithTwoReturns_drops_read`). -/

namespace Lockstep

namespace Lane

variable {p : Program} {b : Bindings} {as : Analyses} {liveGlobals : Array Bool} {f : Function}
  {a : FunctionAnalysis} {l : Lane}

/-- In every run of a lane, an identifier that was assigned and is not that of a global variable is in
    scope when the next instruction reads it, if the instruction's block is on no cycle or a uniform
    block can be reached from it. -/
theorem Run.isLive_of_read {offset : Nat} {id : Id} {a' : FunctionAnalysis} {i : Instr}
    (hf : p.entryFunction? = some f) (hbuild : FunctionAnalysis.ofFunction p p.entry offset = .ok a)
    (ha : as.of? p.entry = some a) (htargets : f.TargetsAgree) (h : l.Run p b as liveGlobals)
    (hl : ¬ l.isFinished) (hassigned : (l.value? id).isSome) (hglobal : ∀ g ∈ b.globals, g.id ≠ id)
    (hnext : l.nextInstr p as = .ok (a', i)) (hid : id ∈ i.reads)
    (huniform : a.flow.isLoop l.block → ∃ u, a.flow.isUniform u ∧ a.flow.reach.holds l.block u) :
    l.isLive id := by
  obtain ⟨f', hf', hdescribes⟩ := FunctionAnalysis.describes_of_ofFunction hbuild
  obtain rfl : f = f' := Option.some.inj (hf.symm.trans hf')
  have he : p.Entry as f a := ⟨hf, ha, hdescribes, htargets⟩
  have hsound := h.sound he hl
  have hblock : l.block = f.blockOf l.instr := hsound.block
  obtain ⟨-, f', hf', hi⟩ := nextInstr_eq_ok hnext
  rw [show l.function = p.entry from hsound.function, he.function] at hf'
  cases hf'
  by_contra hscope
  -- the lane would be behind the last read that the analysis keeps for this read
  obtain ⟨last, hlast, hbefore⟩ := h.behind he hl id ⟨hassigned, hscope⟩ hglobal
  rw [show l.point = f.pointOf l.instr from congrArg (Point.mk · l.instr) hblock] at hbefore
  exact he.not_read_of_path hlast hbefore .refl hi (hblock ▸ huniform) hid

/-- A program that counts up to `%0`, which it reads in every round of its loop. -/
def countUpLoop : Program :=
  { stage := .compute
    functions := #[{
      name := "countUpLoop"
      blocks := #[{}, { preds := [0, 1] }, { preds := [1] }]
      instrs := #[
        { op := .call, ty := .int 32, result := some ⟨0⟩,
          callee := some (.intrinsic .flattenedThreadIdInGroup) },
        { op := .br, args := [.block 1] },
        { op := .phi, ty := .int 32, result := some ⟨1⟩,
          args := [.const (.int 32 0), .block 0, .ref ⟨2⟩, .block 1] },
        { op := .add, ty := .int 32, result := some ⟨2⟩, args := [.ref ⟨1⟩, .const (.int 32 1)] },
        { op := .iEqual, ty := .int 1, result := some ⟨3⟩, args := [.ref ⟨2⟩, .ref ⟨0⟩] },
        { op := .br, args := [.block 2, .block 1, .ref ⟨3⟩] },
        { op := .ret }] }]
    idCount := 4 }

/-- A lane of this program has `%0` in scope when it reads it in the second round, in which it has the
    comparison of the first one. -/
theorem countUpLoop_keeps_bound :
    ∃ (s₀ : Session) (a : FunctionAnalysis) (l : Lane),
      Session.new countUpLoop {} {} [.numbered 3] 0 {} = .ok s₀ ∧ s₀.analyses.of? 0 = some a ∧
      l.Run countUpLoop s₀.bindings s₀.analyses s₀.liveGlobals ∧ l.instr = 4 ∧ a.flow.isLoop l.block ∧
      (l.value? ⟨3⟩).isSome ∧ l.isLive ⟨0⟩ := by
  have h : ∃ s₀, Session.new countUpLoop {} {} [.numbered 3] 0 {} = .ok s₀ ∧
      (∀ g ∈ s₀.bindings.globals, g.id ≠ ⟨0⟩) ∧
      ∃ states, s₀.start.result = .ok states ∧ ∃ a, s₀.analyses.of? 0 = some a ∧
      ∃ s, s₀.start.session.advance .unbound 8 = .ok s ∧ ∃ l, s.lanes[0]? = some l ∧
      ∃ next, l.nextInstr countUpLoop s₀.analyses = .ok next ∧
        ¬ l.isFinished ∧ (l.value? ⟨0⟩).isSome ∧ ⟨0⟩ ∈ next.2.reads ∧ l.instr = 4 ∧
        a.flow.isLoop l.block ∧ (a.flow.isUniform 2 ∧ a.flow.reach.holds l.block 2) ∧
        (l.value? ⟨3⟩).isSome := by
    decide +kernel
  obtain ⟨s₀, hnew, hglobal, states, hstart, a, ha, s, hs, l, hmem, next, hnext, hfin, hassigned, hid,
    hinstr, hloop, huniform, hround⟩ := h
  have hfresh := Session.fresh_of_new hnew
  have hrun := ((Session.Reached.started hstart).advance hs).run hfresh (List.mem_of_getElem? hmem)
  obtain ⟨offset, hbuild⟩ := FunctionAnalysis.ofFunction_of_ofProgram hfresh.analyses ha
  have htargets : Function.TargetsAgree countUpLoop.functions[0] := by decide
  refine ⟨s₀, a, l, hnew, ha, hrun, hinstr, hloop, hround, ?_⟩
  exact Run.isLive_of_read rfl hbuild ha htargets hrun hfin hassigned hglobal hnext hid
    fun _ => ⟨2, huniform⟩

/-- A program with a loop of two blocks, each of which reads `%0` and can leave the loop to a block of
    its own that returns. -/
def loopWithTwoReturns : Program :=
  { stage := .compute
    functions := #[{
      name := "loopWithTwoReturns"
      blocks := #[{}, { preds := [0, 2] }, { preds := [1] }, { preds := [1] }, { preds := [2] }]
      instrs := #[
        { op := .add, ty := .int 32, result := some ⟨0⟩,
          args := [.const (.int 32 1), .const (.int 32 1)] },
        { op := .br, args := [.block 1] },
        { op := .iEqual, ty := .int 1, result := some ⟨1⟩,
          args := [.ref ⟨0⟩, .const (.int 32 1)] },
        { op := .br, args := [.block 3, .block 2, .ref ⟨1⟩] },
        { op := .iEqual, ty := .int 1, result := some ⟨2⟩,
          args := [.ref ⟨0⟩, .const (.int 32 2)] },
        { op := .br, args := [.block 4, .block 1, .ref ⟨2⟩] },
        { op := .ret },
        { op := .ret }] }]
    idCount := 3 }

/-- A lane of this program has dropped `%0` when it comes to the first read of it, in the loop. -/
theorem loopWithTwoReturns_drops_read :
    ∃ (s₀ : Session) (offset : Nat) (f : Function) (a : FunctionAnalysis) (l : Lane) (i : Instr),
      Session.new loopWithTwoReturns {} {} [{}] 0 {} = .ok s₀ ∧ loopWithTwoReturns.entryFunction? = some f ∧
      FunctionAnalysis.ofFunction loopWithTwoReturns loopWithTwoReturns.entry offset = .ok a ∧
      s₀.analyses.of? loopWithTwoReturns.entry = some a ∧ f.TargetsAgree ∧
      l.Run loopWithTwoReturns s₀.bindings s₀.analyses s₀.liveGlobals ∧ ¬ l.isFinished ∧
      a.flow.isLoop l.block ∧ l.nextInstr loopWithTwoReturns s₀.analyses = .ok (a, i) ∧ ⟨0⟩ ∈ i.reads ∧
      (l.value? ⟨0⟩).isSome ∧ (∀ g ∈ s₀.bindings.globals, g.id ≠ ⟨0⟩) ∧ ¬ l.isLive ⟨0⟩ := by
  have h : ∃ s₀, Session.new loopWithTwoReturns {} {} [{}] 0 {} = .ok s₀ ∧
      (∀ g ∈ s₀.bindings.globals, g.id ≠ ⟨0⟩) ∧
      ∃ states, s₀.start.result = .ok states ∧ ∃ a, s₀.analyses.of? loopWithTwoReturns.entry = some a ∧
      ∃ s, s₀.start.session.advance .unbound 2 = .ok s ∧ ∃ l, s.lanes[0]? = some l ∧
      ∃ next, l.nextInstr loopWithTwoReturns s₀.analyses = .ok next ∧
        ¬ l.isFinished ∧ l.function = loopWithTwoReturns.entry ∧ a.flow.isLoop l.block ∧ ⟨0⟩ ∈ next.2.reads ∧
        (l.value? ⟨0⟩).isSome ∧ ¬ l.isLive ⟨0⟩ := by
    decide +kernel
  obtain ⟨s₀, hnew, hglobal, states, hstart, a, ha, s, hs, l, hmem, ⟨a', i⟩, hnext, hfin, hfunction,
    hloop, hid, hassigned, hscope⟩ := h
  have hfresh := Session.fresh_of_new hnew
  have hrun := ((Session.Reached.started hstart).advance hs).run hfresh (List.mem_of_getElem? hmem)
  obtain ⟨offset, hbuild⟩ := FunctionAnalysis.ofFunction_of_ofProgram hfresh.analyses ha
  have ha' := (nextInstr_eq_ok hnext).1
  rw [hfunction, ha] at ha'
  cases ha'
  exact ⟨s₀, offset, loopWithTwoReturns.functions[0], a, l, i, hnew, rfl, hbuild, ha, by decide, hrun, hfin, hloop,
    hnext, hid, hassigned, hglobal, hscope⟩

end Lane

end Lockstep
