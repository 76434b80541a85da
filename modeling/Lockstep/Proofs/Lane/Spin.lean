import Lockstep.Proofs.Lane.Place

set_option autoImplicit false

/-! # Lanes that spin

A lane at a branch that makes up its block and leads back to it never leaves the block: its steps
succeed, leave it where it is and change nothing that lanes share (`Lane.step_of_spins`). -/

namespace Lockstep

/-- A place is at a branch that makes up its block and leads back to it. -/
def Place.Spins (p : Program) (as : Analyses) (q : Place) : Prop :=
  ∃ a f i, as.of? q.function = some a ∧ p.functions[q.function]? = some f ∧
    f.instrs[q.instr]? = some i ∧ i.op = .br ∧ i.args = [.block q.block] ∧
    a.start? q.block = some q.instr ∧ q.globalInstr = a.offset + q.instr ∧
    q.activeInstr = q.globalInstr

instance (p : Program) (as : Analyses) (q : Place) : Decidable (q.Spins p as) :=
  decidable_of_iff
    ((as.of? q.function).any fun a => p.functions[q.function]?.any fun f => f.instrs[q.instr]?.any
      fun i => i.op = .br && i.args.map Operand.block? = [some q.block] &&
        a.start? q.block = some q.instr && q.globalInstr = a.offset + q.instr &&
        q.activeInstr = q.globalInstr) (by
    have hargs : ∀ args : List Operand,
        args.map Operand.block? = [some q.block] ↔ args = [.block q.block] := by
      rintro (_ | ⟨_ | _ | _ | _, _ | _⟩) <;> simp [Operand.block?]
    simp [Place.Spins, Option.any_eq_true, hargs, and_assoc])

namespace Step

variable {s : Setting} {i : Instr} {a : FunctionAnalysis}

theorem on_instruction_br {b : Nat} (hop : i.op = .br) (hargs : i.args = [.block b]) (m : Machine) :
    (instruction s i).on m = (.ok (.jump b), m) := by
  have hbranch : m.lane.branch i = .ok (.jump b) := by
    unfold Lane.branch
    rw [hargs]
  have hterminate : m.lane.terminate i = .ok (.jump b) := by
    unfold Lane.terminate
    rw [hop]
    exact hbranch
  unfold instruction
  rw [if_pos (by simp [Instr.isTerminator, hop, Opcode.isTerminator]), on_bind]
  show Step.on (liftM (m.lane.terminate i)) m = _
  rw [on_lift, hterminate]

/-- An unconditional branch to a block that exists succeeds, and changes nothing that is shared. -/
theorem on_execute_br {m : Machine} {l : Lane} {b : Nat}
    (hnext : m.lane.nextInstr s.program s.analyses = .ok (a, i)) (hop : i.op = .br)
    (hargs : i.args = [.block b]) (hjump : m.lane.advanced.jumpTo a b = .ok l) :
    ∃ m', (execute s).on m = (.ok (), m') ∧ m'.lane = l.retire a none ∧ m'.world = m.world := by
  have hretire := on_retire a none { m with lane := l }
  refine ⟨_, Eq.trans ?_ hretire, rfl, rfl⟩
  unfold execute
  rw [on_bind]
  show Step.on (liftM (m.lane.nextInstr s.program s.analyses) >>= _) m = _
  rw [on_bind, on_lift, hnext]
  show Step.on (instruction s i >>= fun o => conclude a i o) { m with lane := m.lane.advanced } = _
  rw [on_bind, on_instruction_br hop hargs]
  show Step.on (liftM (m.lane.advanced.jumpTo a b) >>= _) _ = _
  rw [on_bind, on_lift, hjump]
  rfl

end Step

namespace Lane

variable {l : Lane}

/-- A lane that spins makes a step, which leaves it where it is and changes nothing that is shared. -/
theorem step_of_spins {s : Setting} (hl : ¬ l.isFinished)
    (h : l.place.Spins s.program s.analyses) (w : World) :
    ∃ state, (l.step s w).result = .ok state ∧ (l.step s w).world = w ∧
      (l.step s w).lane.place = l.place := by
  obtain ⟨a, f, i, ha, hf, hi, hop, hargs, hstart, hglobal, hactive⟩ := h
  have hnext : l.nextInstr s.program s.analyses = .ok (a, i) := by
    unfold nextInstr
    rw [show s.analyses.of? l.function = _ from ha, show s.program.functions[l.function]? = _ from hf]
    dsimp only
    rw [show f.instrs[l.instr]? = _ from hi]
  obtain ⟨l', hl'⟩ : ∃ l', l.advanced.jumpTo a l.block = .ok l' := by
    unfold jumpTo
    rw [show a.start? l.block = _ from hstart]
    exact ⟨_, rfl⟩
  obtain ⟨start, hstart', hplace⟩ := place_of_jumpTo hl'
  obtain rfl : l.instr = start := Option.some.inj (hstart.symm.trans hstart')
  obtain ⟨m', hexecute, hlane, hworld⟩ :=
    Step.on_execute_br (m := { lane := l, world := w }) hnext hop hargs hl'
  unfold step
  rw [if_neg hl, hexecute]
  refine ⟨_, rfl, hworld, ?_⟩
  show m'.lane.place = l.place
  rw [hlane, place_retire, hplace]
  show Place.mk l.function l.block l.instr (a.offset + l.instr) _ _ _ _ = l.place
  rw [show a.offset + l.instr = l.globalInstr from hglobal.symm]
  rfl

/-- Neither does moving past markers. -/
theorem place_skipNops_of_spins {p : Program} {as : Analyses} (hl : ¬ l.isFinished)
    (h : l.place.Spins p as) : (l.skipNops p).place = l.place := by
  obtain ⟨a, f, i, -, hf, hi, hop, -, -, -, hactive⟩ := h
  have hnop : ¬ atNop f l.instr := by
    rw [atNop, show f.instrs[l.instr]? = _ from hi]
    simp [Instr.isNop, hop]
  have hnops : nopsFrom f l.instr f.instrs.size = 0 := by
    cases f.instrs.size with
    | zero => rfl
    | succ n => rw [nopsFrom, if_neg hnop]
  rw [place_skipNops hl hf, hnops]
  show Place.mk _ _ _ _ l.globalInstr _ _ _ = l.place
  rw [show l.globalInstr = l.activeInstr from hactive.symm]
  rfl

end Lane

end Lockstep
