import Lockstep.Proofs.Flow.Names
import Lockstep.Proofs.Lane.Trail

set_option autoImplicit false

/-! # Allocations in scope

An identifier comes into scope when it is assigned, and goes out of scope when the lane is behind its
last read (`Lane.Trail.isLive_iff`). The identifier of an allocation makes no difference: it is kept up
to the last instruction that names it (`Lane.Trail.isLive_of_alloca`), and not while pointers that
were derived from it are still used (`Lane.allocaThenDerived_retires`). -/

namespace Lockstep

/-- Some element of a list has one property, and all elements after it have another. -/
def Since {α : Type} (given kept : α → Prop) (past : List α) : Prop :=
  ∃ before t after, past = before ++ t :: after ∧ given t ∧ ∀ u ∈ after, kept u

section Since

variable {α : Type} {given kept : α → Prop} {past : List α} {t : α}

theorem not_since_nil : ¬ Since given kept [] := by
  rintro ⟨before, t, after, h, -, -⟩
  simp at h

theorem since_concat : Since given kept (past ++ [t]) ↔ given t ∨ (Since given kept past ∧ kept t) := by
  constructor
  · rintro ⟨before, u, after, h, hu, hafter⟩
    rcases List.eq_nil_or_concat after with rfl | ⟨rest, v, rfl⟩
    · obtain ⟨-, hlast⟩ := List.append_inj' h rfl
      cases hlast
      exact .inl hu
    · rw [List.concat_eq_append, ← List.cons_append, ← List.append_assoc] at h
      obtain ⟨hpast, hlast⟩ := List.append_inj' h rfl
      cases hlast
      refine .inr ⟨⟨before, u, rest, hpast, hu, fun w hw => hafter w ?_⟩, hafter t ?_⟩
      · simp [hw]
      · simp
  · rintro (ht | ⟨⟨before, u, after, rfl, hu, hafter⟩, ht⟩)
    · exact ⟨past, t, [], rfl, ht, fun u hu => absurd hu List.not_mem_nil⟩
    · refine ⟨before, u, after ++ [t], by simp, hu, fun w hw => ?_⟩
      rcases List.mem_append.1 hw with hw | hw
      · exact hafter w hw
      · cases List.mem_singleton.1 hw
        exact ht

/-- If the one property has not held since the other did, there is an element that does not have it. -/
theorem exists_not_of_not_since (h : ¬ Since given kept past) (hmem : t ∈ past) (ht : given t) :
    ∃ u ∈ past, ¬ kept u := by
  obtain ⟨before, after, rfl⟩ := List.append_of_mem hmem
  by_contra hall
  refine h ⟨before, t, after, rfl, ht, fun u hu => ?_⟩
  by_contra hno
  exact hall ⟨u, by simp [hu], hno⟩

end Since

/-- Whether a point is behind the last read of an identifier. -/
def FunctionAnalysis.passes (a : FunctionAnalysis) (id : Id) (q : Point) : Bool :=
  (a.lastRead? id).any fun last => q.isAfter last a.flow

/-- The identifier that an outcome assigns. -/
def Outcome.target? : Outcome → Option Id
  | .effect (.assign id _ _) => some id
  | _ => none

/-- The identifier that the outcome of a step assigns. -/
def Move.target? (t : Move) : Option Id :=
  match t.lane.nextInstr t.setting.program t.setting.analyses with
  | .ok (_, i) => (t.outcome i).toOption.bind Outcome.target?
  | .error _ => none

/-! ## What a step brings into scope and drops -/

namespace Lane

variable {l l' : Lane} {id id' : Id} {a : FunctionAnalysis}

/-- Whether an identifier is in scope, and whether it is that of a global variable. -/
def scope? (l : Lane) (id : Id) : Option (Bool × Bool) :=
  l.cells[id.index]?.map fun c => (c.isLive, c.isGlobal)

theorem isLive_eq_scope (hid : id.index < l.cells.size) : l.isLive id = (l.scope? id).any Prod.fst := by
  unfold isLive scope?
  rw [if_pos hid]
  cases l.cells[id.index]? <;> rfl

theorem scope_of_frame (h : l'.frame = l.frame) (id : Id) : l'.scope? id = l.scope? id := by
  have hcell := congrArg (Option.map Prod.snd) (cell_of_frame h id.index)
  simpa [scope?, Function.comp_def] using hcell

theorem scope_of_cells (h : l'.cells = l.cells) (id : Id) : l'.scope? id = l.scope? id := by
  rw [scope?, h, scope?]

theorem scope_assign (l : Lane) (id' : Id) (v : Variable) (id : Id) :
    (l.assign id' v).scope? id = l.scope? id := by
  unfold assign
  split
  · unfold scope?
    rw [Array.getElem?_modify]
    split
    · cases l.cells[id.index]? <;> rfl
    · rfl
  · split
    · rfl
    · split <;> rfl

theorem scope_bringIntoScope (l : Lane) (id' id : Id) :
    (l.bringIntoScope id').scope? id = (l.scope? id).map fun s => (s.1 || id' = id, s.2) := by
  unfold bringIntoScope scope?
  rw [Array.getElem?_modify]
  by_cases hid : id' = id
  · subst hid
    cases l.cells[id'.index]? <;> simp
  · have hindex : id'.index ≠ id.index := fun heq => hid (congrArg Id.mk heq)
    cases l.cells[id.index]? <;> simp [hid, hindex]

theorem scope_retire (l : Lane) (a : FunctionAnalysis) (keep : Option Id) (id : Id) :
    (l.retire a keep).scope? id =
      (l.scope? id).map fun s => (s.1 && (s.2 || keep = some id || !a.passes id l.point), s.2) := by
  have hkept : (some id != keep) = !decide (keep = some id) := by
    rw [Bool.eq_iff_iff]
    simp [@eq_comm _ (some id) keep]
  have hdrops : ∀ live global kept passed : Bool,
      (live && !(live && !global && !kept && passed)) = (live && (global || kept || !passed)) := by
    decide
  unfold retire scope?
  rw [Array.getElem?_mapIdx]
  cases l.cells[id.index]? with
  | none => rfl
  | some c =>
      have hlive : (if retires a l.point keep id c then { c with isLive := false } else c).isLive =
          (c.isLive && !retires a l.point keep id c) := by
        cases retires a l.point keep id c <;> simp
      have hglobal : (if retires a l.point keep id c then { c with isLive := false } else c).isGlobal =
          c.isGlobal := by
        cases retires a l.point keep id c <;> rfl
      rw [Option.map_some, Option.map_some, Option.map_some, hlive, hglobal, retires, hkept, hdrops]
      rfl

theorem scope_jumpTo {block : Nat} (h : l.jumpTo a block = .ok l') (id : Id) :
    l'.scope? id = l.scope? id := by
  obtain ⟨_, -, rfl⟩ := jumpTo_ok h
  rfl

end Lane

namespace Step

variable {a : FunctionAnalysis} {i : Instr} {o : Outcome} {m m' : Machine}

/-- When an outcome has been carried out and the lane still runs, an identifier is in scope if it has been
    assigned, or was in scope and the lane is not behind its last read. -/
theorem scope_of_conclude (h : (conclude a i o).on m = (.ok (), m')) (hrun : ¬ m'.lane.isFinished)
    (id : Id) : m'.lane.scope? id = (m.lane.scope? id).map fun s =>
      (o.target? = some id || s.1 && (s.2 || !a.passes id m'.lane.point), s.2) := by
  cases o with
  | leave =>
      cases h
      exact absurd (Lane.isFinished_of_stop (.inr rfl)) hrun
  | jump b =>
      obtain ⟨l, _, hlane, h₁⟩ := ok_of_on_bind h
      cases hlane
      obtain ⟨l', _, hjump, h₂⟩ := ok_of_on_bind h₁
      obtain ⟨rfl, hl'⟩ := ok_of_lift hjump
      obtain ⟨_, m₁, hmodify, h₃⟩ := ok_of_on_bind h₂
      cases hmodify
      cases (on_retire ..).symm.trans h₃
      show (l'.retire a none).scope? id = _
      rw [Lane.scope_retire, Lane.scope_jumpTo hl']
      simp [Outcome.target?, Lane.point, Lane.retire]
  | effect e =>
      cases e with
      | kill =>
          cases h
          exact absurd (Lane.isFinished_of_stop (.inl rfl)) hrun
      | proceed =>
          cases (on_retire ..).symm.trans h
          show (m.lane.retire a none).scope? id = _
          rw [Lane.scope_retire]
          simp [Outcome.target?, Lane.point, Lane.retire]
      | assign id' v report =>
          obtain ⟨_, m₁, hretire, h₁⟩ := ok_of_on_bind h
          cases (on_retire ..).symm.trans hretire
          obtain ⟨-, events, rfl⟩ := assign_ok h₁
          have hpoint : ((((m.lane.retire a (some id')).assign id' (i.assigned v)).bringIntoScope id')).point =
              m.lane.point :=
            congrArg Place.point (Lane.place_assign (l := m.lane.retire a (some id')) id' (i.assigned v))
          show (((m.lane.retire a (some id')).assign id' _).bringIntoScope id').scope? id = _
          rw [Lane.scope_bringIntoScope, Lane.scope_assign, Lane.scope_retire, hpoint, Option.map_map]
          refine congrArg (fun g => (m.lane.scope? id).map g) (funext fun s => ?_)
          by_cases hid : id' = id <;> simp [Outcome.target?, hid]

end Step

namespace Move

variable {t : Move} {i : Instr}

/-- What a step that succeeds makes of the scope of an identifier, if the lane still runs. -/
theorem scope_stepped (hrun : ¬ t.lane.isFinished) (hok : t.Succeeds)
    (hrun' : ¬ t.stepped.lane.isFinished) (id : Id) :
    ∃ a i, t.lane.nextInstr t.setting.program t.setting.analyses = .ok (a, i) ∧
      t.stepped.lane.scope? id = (t.lane.scope? id).map fun s =>
        (t.target? = some id || s.1 && (s.2 || !a.passes id t.stepped.lane.point), s.2) := by
  obtain ⟨state, hok⟩ := hok
  obtain ⟨m, hm, hstep, -⟩ := Lane.execute_of_step hrun hok
  obtain ⟨a, i, o, m₁, hnext, ho, hend⟩ := Step.execute_iff.1 hm
  refine ⟨a, i, hnext, ?_⟩
  have htarget : t.target? = o.target? := by
    unfold target? outcome
    rw [hnext]
    dsimp only
    rw [ho]
    rfl
  have hlane : t.stepped.lane = m.lane := by rw [stepped, hstep]
  rw [hlane] at hrun' ⊢
  rw [Step.scope_of_conclude hend hrun', Lane.scope_of_frame (Step.instruction_ok ho).1, htarget]
  rfl

/-- The outcome of a step that executes an allocation is to assign its identifier. -/
theorem target_of_alloca (hrun : ¬ t.lane.isFinished) (hok : t.Succeeds) (hi : t.Executes i)
    (hop : i.op = .alloca) : t.target? = i.result := by
  obtain ⟨state, hok⟩ := hok
  obtain ⟨a, hnext⟩ := hi
  obtain ⟨m, hm, -, -⟩ := Lane.execute_of_step hrun hok
  obtain ⟨a', i', o, m₁, hnext', ho, -⟩ := Step.execute_iff.1 hm
  cases hnext.symm.trans hnext'
  obtain ⟨e, rfl, hmemory, -⟩ :=
    Step.on_instruction_of_usesMemory (show i.usesMemory by rw [Instr.usesMemory, hop]) ho
  unfold Step.memory at hmemory
  rw [hop] at hmemory
  obtain ⟨id, pointee, hid, -, rfl, -⟩ := Step.alloca_ok hmemory
  unfold target? outcome
  rw [hnext]
  dsimp only
  rw [ho, hid]
  rfl

end Move

/-! ## Scope along a run -/

namespace Lane

variable {p : Program} {b : Bindings} {as : Analyses} {liveGlobals : Array Bool} {f : Function}
  {a : FunctionAnalysis} {l : Lane} {past : List Move} {id : Id}

theorem scope_bindGlobals (l : Lane) (gs : List GlobalVar) (id : Id) :
    (l.bindGlobals gs).1.scope? id = l.scope? id :=
  bindGlobals_induction (P := fun l' => l'.scope? id = l.scope? id) rfl fun _ h => (scope_assign ..).trans h

/-- A lane that has entered the program has the global variables in scope, and no other identifier. -/
theorem scope_of_enter {index : Nat} {init : LaneInit} (hid : id.index < p.idCount)
    (h : (Lane.new index p init).enter p b as liveGlobals = (.ok (), l)) :
    l.scope? id = some (liveGlobals[id.index]?.getD false, liveGlobals[id.index]?.getD false) := by
  obtain ⟨a, l₁, -, hbind, rfl⟩ := eq_of_enter h
  have hscope := scope_bindGlobals (Lane.new index p init) b.globals id
  rw [hbind] at hscope
  have hnew : (Lane.new index p init).scope? id = some (false, false) := by
    simp [scope?, Lane.new, hid]
  rw [hnew] at hscope
  obtain ⟨c, hc, hflags⟩ := Option.map_eq_some_iff.1 hscope
  rw [scope_of_cells (cells_skipNops ..), scopeGlobals, scope?, Array.getElem?_mapIdx, hc]
  cases liveGlobals[id.index]? with
  | none => simpa using hflags
  | some g => rfl

namespace Trail

/-- While a lane runs, an identifier is in scope if it is that of a global variable, or the lane has not
    come behind its last read since it was last assigned. -/
theorem scope_eq (he : p.Entry as f a) (h : l.Trail p b as liveGlobals past) (hl : ¬ l.isFinished)
    (hid : id.index < p.idCount) : ∃ live, l.scope? id = some (live, liveGlobals[id.index]?.getD false) ∧
      (live ↔ liveGlobals[id.index]?.getD false ∨
        Since (·.target? = some id) (fun t => ¬ a.passes id t.stepped.lane.point) past) := by
  induction h with
  | entered h => exact ⟨_, scope_of_enter hid h, by simp [not_since_nil]⟩
  | @stepped l past s w state hl₀ hrun hp has h ih =>
      obtain ⟨live, hscope, hlive⟩ := ih hrun
      obtain ⟨a', i, hnext, hstepped⟩ := Move.scope_stepped (t := ⟨l, s, w⟩) hrun ⟨state, h⟩ hl id
      replace hnext : l.nextInstr s.program s.analyses = .ok (a', i) := hnext
      rw [hp, has] at hnext
      obtain ⟨rfl, -⟩ := instr_of_nextInstr he.enters (hl₀.run.sound he hrun).function hnext
      rw [show (Move.mk l s w).lane.scope? id = _ from hscope] at hstepped
      refine ⟨_, hstepped, ?_⟩
      rw [since_concat]
      simp only [Bool.or_eq_true, decide_eq_true_eq, Bool.and_eq_true, Bool.not_eq_true', hlive]
      grind
  | @refreshed l l' past memory _ h ih =>
      have hframe := frame_refreshGlobals l memory b.globals
      rw [h] at hframe
      rw [isFinished_of_place (place_of_frame hframe)] at hl
      rw [scope_of_frame hframe]
      exact ih hl
  | skipped _ ih =>
      rw [isFinished_skipNops] at hl
      rw [scope_of_cells (cells_skipNops ..)]
      exact ih hl

/-- An identifier of the program is in scope exactly if it is that of a global variable, or the lane has
    not come behind its last read since it was last assigned. -/
theorem isLive_iff (he : p.Entry as f a) (h : l.Trail p b as liveGlobals past) (hl : ¬ l.isFinished)
    (hid : id.index < p.idCount) : l.isLive id ↔ liveGlobals[id.index]? = some true ∨
      Since (·.target? = some id) (fun t => ¬ a.passes id t.stepped.lane.point) past := by
  obtain ⟨live, hscope, hlive⟩ := h.scope_eq he hl hid
  have hsize : l.cells.size = p.idCount := congrArg Prod.snd h.run.build_eq
  rw [isLive_eq_scope (hsize ▸ hid), hscope]
  simpa [Option.getD_eq_iff] using hlive

/-- As long as a lane runs that has executed an allocation, the identifier of the allocation is in scope
    exactly if the lane has not come behind its last read since the identifier was last assigned, by an
    allocation or by a store through it, or if it is marked as that of a global variable. So it is in scope
    wherever control can still come to an instruction that reads it, if the analysis keeps it for that. -/
theorem isLive_of_alloca {offset : Nat} {t : Move} {i : Instr} (hf : p.entryFunction? = some f)
    (hbuild : FunctionAnalysis.ofFunction p p.entry offset = .ok a) (ha : as.of? p.entry = some a)
    (htargets : f.TargetsAgree) (h : l.Trail p b as liveGlobals past) (hl : ¬ l.isFinished)
    (ht : t ∈ past) (hi : t.Executes i) (hop : i.op = .alloca) (hid : i.result = some id) :
    (l.isLive id ↔ liveGlobals[id.index]? = some true ∨
        Since (·.target? = some id) (fun t => ¬ a.passes id t.stepped.lane.point) past) ∧
      ∀ j x, Relation.ReflTransGen (f.Goes a.starts) l.instr j → f.instrs[j]? = some x → id ∈ x.reads →
        a.flow.LeadsOut (f.blockOf j) → l.isLive id := by
  obtain ⟨f', hf', hdescribes⟩ := FunctionAnalysis.describes_of_ofFunction hbuild
  obtain rfl : f = f' := Option.some.inj (hf.symm.trans hf')
  have he : p.Entry as f a := ⟨hf, ha, hdescribes, htargets⟩
  have htaken := h.taken t ht
  obtain ⟨i', hi', hat⟩ := htaken.executes he
  obtain rfl := hi.unique hi'
  have hnop : ¬ i.isNop := by simp [Instr.isNop, hop]
  have hnamed : id.index < p.idCount := by
    refine hdescribes.named hat ?_
    rw [Instr.names, if_neg hnop, hid]
    exact List.mem_append_left _ (List.mem_singleton_self id)
  have hiff := h.isLive_iff he hl hnamed
  refine ⟨hiff, fun j x hpath hx hread hout => ?_⟩
  by_contra hscope
  obtain ⟨-, hsince⟩ := not_or.1 fun hor => hscope (hiff.2 hor)
  have htarget := Move.target_of_alloca htaken.running htaken.succeeds hi hop
  -- the lane has been behind the last read, and so it is now
  obtain ⟨u, hu, hpasses⟩ := exists_not_of_not_since hsince ht (htarget.trans hid)
  obtain ⟨last, hlast, hafter⟩ := (Option.any_eq_true _ _).1 (not_not.1 hpasses)
  have hbefore := h.before_of_stepped he hl hu (.of_isAfter hdescribes.flow hafter)
  have hpoint : l.point = f.pointOf l.instr := congrArg (Point.mk · l.instr) (h.run.sound he hl).block
  exact he.not_read_of_path hlast (hpoint ▸ hbefore) hpath hx hout hread

end Trail

/-- A program that stores to an element of its array and loads it again, through a pointer to the element. -/
def allocaThenDerived : Program :=
  { stage := .compute
    functions := #[{
      name := "allocaThenDerived"
      blocks := #[{}]
      instrs := #[
        { op := .alloca, ty := .pointer (.array (.int 32) 2) .stack, result := some ⟨0⟩ },
        { op := .getElementPtr, ty := .pointer (.int 32) .stack, result := some ⟨1⟩,
          args := [.ref ⟨0⟩, .const (.int 32 0), .const (.int 32 1)] },
        { op := .store, args := [.ref ⟨1⟩, .const (.int 32 5)] },
        { op := .load, ty := .int 32, result := some ⟨2⟩, args := [.ref ⟨1⟩] },
        { op := .ret }] }]
    idCount := 3 }

/-- A lane of this program has the array in scope when it is about to derive the pointer. -/
theorem allocaThenDerived_is_live :
    ∃ (s₀ : Session) (a : FunctionAnalysis) (l : Lane) (past : List Move),
      Session.new allocaThenDerived {} {} [{}] 0 {} = .ok s₀ ∧ s₀.analyses.of? 0 = some a ∧
      l.Trail allocaThenDerived s₀.bindings s₀.analyses s₀.liveGlobals past ∧ ¬ l.isFinished ∧ l.instr = 1 ∧
      (∃ t ∈ past, ∃ i, t.Executes i ∧ i.op = .alloca ∧ i.result = some ⟨0⟩) ∧ l.isLive ⟨0⟩ := by
  have h : ∃ s₀, Session.new allocaThenDerived {} {} [{}] 0 {} = .ok s₀ ∧
      ∃ a, s₀.analyses.of? 0 = some a ∧ a.flow.loops = [] ∧
      ∃ states, s₀.start.result = .ok states ∧ ∃ l₀, s₀.start.session.lanes[0]? = some l₀ ∧
        let t := s₀.start.session.move .unbound 0 l₀
        (∀ u ∈ List.iterate Move.next t 1, ¬ u.lane.isFinished ∧ u.Succeeds) ∧
        ¬ (Move.next^[1] t).lane.isFinished ∧ (Move.next^[1] t).lane.instr = 1 ∧
        ∃ next, l₀.nextInstr t.setting.program t.setting.analyses = .ok next ∧
          next.2.op = .alloca ∧ next.2.result = some ⟨0⟩ := by
    decide +kernel
  obtain ⟨s₀, hnew, a, ha, hloops, states, hstart, l₀, hl₀, hok, hfin, hinstr, ⟨a', i⟩, hnext, hop, hid⟩ := h
  have hfresh := Session.fresh_of_new hnew
  obtain ⟨offset, hbuild⟩ := FunctionAnalysis.ofFunction_of_ofProgram hfresh.analyses ha
  have htrail := trail_of_start hfresh hstart hl₀ hok
  have htargets : Function.TargetsAgree allocaThenDerived.functions[0] := by decide
  have hexecutes : (s₀.start.session.move .unbound 0 l₀).Executes i := ⟨a', hnext⟩
  refine ⟨s₀, a, _, _, hnew, ha, htrail, hfin, hinstr,
    ⟨_, List.mem_cons_self, i, hexecutes, hop, hid⟩, ?_⟩
  have hreads := (Trail.isLive_of_alloca rfl hbuild ha htargets htrail hfin List.mem_cons_self hexecutes
    hop hid).2
  -- the lane is at the instruction that derives the pointer from the array
  obtain ⟨x, hx, hread⟩ : ∃ x, allocaThenDerived.functions[0].instrs[1]? = some x ∧ ⟨0⟩ ∈ x.reads :=
    ⟨_, rfl, by decide⟩
  rw [← hinstr] at hx
  exact hreads _ x .refl hx hread (.of_loops hloops _)

set_option synthInstance.maxSize 512 in
/-- Two steps later the array is no longer in scope, and the lane is about to load from it. -/
theorem allocaThenDerived_retires :
    ∃ (s₀ : Session) (offset : Nat) (a : FunctionAnalysis) (l : Lane) (past : List Move) (i : Instr),
      Session.new allocaThenDerived {} {} [{}] 0 {} = .ok s₀ ∧
      FunctionAnalysis.ofFunction allocaThenDerived allocaThenDerived.entry offset = .ok a ∧
      s₀.analyses.of? allocaThenDerived.entry = some a ∧
      l.Trail allocaThenDerived s₀.bindings s₀.analyses s₀.liveGlobals past ∧
      (∃ t ∈ past, ∃ j, t.Executes j ∧ j.op = .alloca ∧ j.result = some ⟨0⟩) ∧ ¬ l.isFinished ∧
      l.nextInstr allocaThenDerived s₀.analyses = .ok (a, i) ∧ i.op = .load ∧ ⟨1⟩ ∈ i.reads ∧
      (l.memory.pointer? ⟨1⟩).any (·.base = ⟨0⟩) ∧ ¬ l.isLive ⟨0⟩ := by
  have h : ∃ s₀, Session.new allocaThenDerived {} {} [{}] 0 {} = .ok s₀ ∧
      ∃ a, s₀.analyses.of? 0 = some a ∧
      ∃ states, s₀.start.result = .ok states ∧ ∃ l₀, s₀.start.session.lanes[0]? = some l₀ ∧
        let t := s₀.start.session.move .unbound 0 l₀
        ∃ first, l₀.nextInstr t.setting.program t.setting.analyses = .ok first ∧
        first.2.op = .alloca ∧ first.2.result = some ⟨0⟩ ∧
        (∀ u ∈ List.iterate Move.next t 3, ¬ u.lane.isFinished ∧ u.Succeeds) ∧
        let l := (Move.next^[3] t).lane
        ¬ l.isFinished ∧ l.function = 0 ∧ (l.memory.pointer? ⟨1⟩).any (·.base = ⟨0⟩) ∧ ¬ l.isLive ⟨0⟩ ∧
        ∃ next, l.nextInstr allocaThenDerived s₀.analyses = .ok next ∧ next.2.op = .load ∧ ⟨1⟩ ∈ next.2.reads := by
    decide +kernel
  obtain ⟨s₀, hnew, a, ha, states, hstart, l₀, hl₀, ⟨a₁, j⟩, hnext₁, hop, hid, hok, hfin, hfunction,
    hpointer, hscope, ⟨a₂, i⟩, hnext₂, hload, hread⟩ := h
  have hfresh := Session.fresh_of_new hnew
  obtain ⟨offset, hbuild⟩ := FunctionAnalysis.ofFunction_of_ofProgram hfresh.analyses ha
  have htrail := trail_of_start hfresh hstart hl₀ hok
  have ha₂ := (nextInstr_eq_ok hnext₂).1
  rw [hfunction, ha] at ha₂
  cases ha₂
  exact ⟨s₀, offset, a, _, _, i, hnew, hbuild, ha, htrail,
    ⟨_, List.mem_cons_self, j, ⟨a₁, hnext₁⟩, hop, hid⟩, hfin, hnext₂, hload, hread, hpointer, hscope⟩

end Lane

end Lockstep
