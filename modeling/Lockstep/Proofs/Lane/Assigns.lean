import Lockstep.Proofs.Flow.Unique
import Lockstep.Proofs.Lane.Moves
import Lockstep.Proofs.Session.Changes

set_option autoImplicit false

/-! # What a step assigns

A step assigns the result of its instruction and, if that writes to memory, the pointer that it writes
through and the allocation. Beside these there is the output, which a store to the signature assigns
(`Move.assigns_cases`). Markers assign nothing. -/

namespace Lockstep

/-! ## Instructions -/

namespace Step

variable {s : Setting} {i : Instr} {m m' : Machine} {x id target : Id} {q : Pointer} {bytes : Bytes}
  {v : Variable} {report : Bool}

/-- A store leaves the identifier of its pointer to be assigned. -/
theorem target_of_store (h : (store id q bytes).on m = (.ok (target, v), m')) : target = id := by
  unfold store at h
  obtain ⟨_, _, -, h⟩ := ok_of_on_bind h
  obtain ⟨_, _, -, h⟩ := ok_of_on_bind h
  obtain ⟨_, _, -, h⟩ := ok_of_on_bind h
  obtain ⟨_, _, -, h⟩ := ok_of_on_bind h
  obtain ⟨_, _, -, h⟩ := ok_of_on_bind h
  split at h
  · next hbase =>
      cases h
      exact hbase.symm
  · obtain ⟨_, _, -, h⟩ := ok_of_on_bind h
    obtain ⟨_, _, -, h⟩ := ok_of_on_bind h
    obtain ⟨_, _, -, h⟩ := ok_of_on_bind h
    cases h
    rfl

/-- What an instruction on memory leaves to be assigned is its result, or the pointer that it writes
    through. -/
theorem assigned_of_memory (hi : i.usesMemory) (h : (memory i).on m = (.ok (.assign x v report), m')) :
    i.result = some x ∨ ∃ q, m.lane.WritesThrough m.world.memory i x q := by
  rcases memory_cases hi with ⟨-, hmemory⟩ | ⟨-, hmemory⟩ | ⟨hop, hmemory⟩ | ⟨-, hmemory⟩ | ⟨hop, hmemory⟩
  all_goals rw [hmemory] at h
  · obtain ⟨id, pointee, hid, -, heq, -⟩ := alloca_ok h
    cases heq
    exact .inl hid
  · obtain ⟨id, src, q, bytes, hid, -, -, -, heq, -⟩ := load_ok h
    cases heq
    exact .inl hid
  · obtain ⟨src, q, w, target, after, hsrc, hq, -, hstored, heq⟩ := storeArg_ok h
    cases heq
    cases target_of_store hstored
    exact .inr ⟨q, Instr.writesMemory_of_store hop, hsrc, hq⟩
  · obtain ⟨id, q, bytes, hid, -, -, heq, -⟩ := elementPointer_ok h
    cases heq
    exact .inl hid
  · obtain ⟨src, q, operand, bytes, bits, target, after, m₁, hsrc, hq, -, -, -, hstored, hresult⟩ := atomic_ok h
    rcases hresult with ⟨-, -, heq⟩ | ⟨id, hid, -, heq⟩
    · cases heq
      cases target_of_store hstored
      exact .inr ⟨q, Instr.writesMemory_of_atomic hop, hsrc, hq⟩
    · cases heq
      exact .inl hid

/-- What an instruction leaves to be assigned is its result, the pointer that it writes through, or the
    output. -/
theorem assigned_of_instruction (h : (instruction s i).on m = (.ok (.effect (.assign x v report)), m')) :
    i.result = some x ∨ (∃ q, m.lane.WritesThrough m.world.memory i x q) ∨ x = m.lane.outputId := by
  by_cases hi : i.usesMemory
  · obtain ⟨e, heq, hmemory, -⟩ := on_instruction_of_usesMemory hi h
    cases heq
    exact (assigned_of_memory hi hmemory).imp_right .inl
  · exact ((Beside.of_instruction hi h).2 rfl).imp_right .inr

end Step

/-! ## Steps -/

namespace Move

/-- The step executes an instruction. -/
def Executes (t : Move) (i : Instr) : Prop :=
  ∃ a, t.lane.nextInstr t.setting.program t.setting.analyses = .ok (a, i)

/-- The step stores, or updates, through the pointer of an identifier, or to the allocation of an
    identifier. -/
def Writes (t : Move) (x : Id) : Prop :=
  ∃ i src q, t.Executes i ∧ t.lane.WritesThrough t.world.memory i src q ∧ (x = src ∨ x = q.base)

/-- The step assigns a value to an identifier: its instruction asks for it, or the identifier does not have
    the value that it had. -/
def Assigns (t : Move) (x : Id) : Prop :=
  (∃ i v report, t.Executes i ∧ t.outcome i = .ok (.effect (.assign x v report))) ∨
    t.stepped.lane.value? x ≠ t.lane.value? x

variable {t : Move} {i j : Instr} {x : Id}

theorem Executes.unique (hi : t.Executes i) (hj : t.Executes j) : i = j := by
  obtain ⟨a, hi⟩ := hi
  obtain ⟨a', hj⟩ := hj
  cases hi.symm.trans hj
  rfl

/-- In a program that has no stores no step writes. -/
theorem not_writes (hp : ∀ f ∈ t.setting.program.functions, ∀ i ∈ f.instrs, ¬ i.writesMemory) :
    ¬ t.Writes x := by
  rintro ⟨i, src, q, ⟨a, hnext⟩, ⟨hwrites, -⟩, -⟩
  obtain ⟨f, hf, hi⟩ := Program.hasInstr_of_nextInstr hnext
  exact hp f hf i hi hwrites

/-- A marker assigns nothing. -/
theorem not_assigns_of_isNop (hrun : ¬ t.lane.isFinished) (hok : t.Succeeds) (hi : t.Executes i)
    (hnop : i.isNop) : ¬ t.Assigns x := by
  obtain ⟨state, hok⟩ := hok
  obtain ⟨m, hm, hstep, -⟩ := Lane.execute_of_step hrun hok
  obtain ⟨a, j, o, m₁, hnext, ho, hend⟩ := Step.execute_iff.1 hm
  obtain rfl := hi.unique ⟨a, hnext⟩
  have hproceed := Step.on_instruction_of_isNop hnop t.setting { lane := t.lane.advanced, world := t.world }
  rintro (⟨j, v, report, hj, houtcome⟩ | hchanged)
  · obtain rfl := hi.unique hj
    rw [outcome, hproceed] at houtcome
    cases houtcome
  · cases hproceed.symm.trans ho
    rcases Step.holdings_of_conclude hend with ⟨_, _, _, heq, -⟩ | ⟨-, hkept⟩
    · cases heq
    · refine hchanged ?_
      rw [stepped, hstep]
      exact congrFun (congrArg Holdings.values hkept) x

/-- A step assigns what its instruction defines, what it writes through or to, and the output. -/
theorem assigns_cases (hrun : ¬ t.lane.isFinished) (hok : t.Succeeds) (h : t.Assigns x) :
    (∃ i, t.Executes i ∧ i.defined? = some x) ∨ t.Writes x ∨ x = t.lane.outputId := by
  obtain ⟨state, hstep⟩ := hok
  obtain ⟨a, i, hnext, hdoes⟩ := Lane.does_of_step hrun hstep
  have hi : t.Executes i := ⟨a, hnext⟩
  have hdefined : i.defined? = i.result :=
    if_neg fun hnop => not_assigns_of_isNop hrun ⟨state, hstep⟩ hi hnop h
  rcases h with ⟨j, v, report, hj, houtcome⟩ | hchanged
  · obtain rfl := hi.unique hj
    rcases Step.assigned_of_instruction (Prod.ext houtcome rfl) with hid | ⟨q, hthrough⟩ | houtput
    · exact .inl ⟨i, hi, hdefined.trans hid⟩
    · exact .inr (.inl ⟨i, x, q, hi, hthrough, .inl rfl⟩)
    · exact .inr (.inr houtput)
  · by_cases houtput : x = t.lane.outputId
    · exact .inr (.inr houtput)
    · rcases hdoes.value_cases houtput hchanged with hid | ⟨src, q, hthrough, hx⟩
      · exact .inl ⟨i, hi, hdefined.trans hid⟩
      · exact .inr (.inl ⟨i, src, q, hi, hthrough, hx⟩)

end Move

end Lockstep
