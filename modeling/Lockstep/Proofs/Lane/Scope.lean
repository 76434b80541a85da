import Lockstep.Host.Unbound
import Lockstep.Proofs.Flow.LastReads
import Lockstep.Proofs.Session.Mask
import Lockstep.Proofs.Session.Rounds

set_option autoImplicit false

/-! # What lanes drop

The invariant of a run is that a lane is behind the last read of each identifier that it has dropped
(`Lane.Run.behind`). So in a function without loops a lane drops an identifier only when control cannot
come to another read of it (`Lane.Run.no_early_drop`). -/

namespace Lockstep

/-! ## Control within a function -/

/-- Control can go from one instruction on to another. -/
inductive Function.Goes (f : Function) (starts : List Nat) (i : Nat) : Nat → Prop
  | next (instr : Instr) (hi : f.instrs[i]? = some instr) (ht : ¬ instr.isTerminator) :
      Goes f starts i (i + 1)
  | jump (instr : Instr) (b start : Nat) (hi : f.instrs[i]? = some instr) (ht : instr.isTerminator)
      (hb : b ∈ instr.targets) (hstart : starts[b]? = some start) : Goes f starts i start

namespace Program.Entry

variable {p : Program} {as : Analyses} {f : Function} {a : FunctionAnalysis}

theorem before_of_goes (he : p.Entry as f a) {i j : Nat} (h : f.Goes a.starts i j) :
    f.Before (f.pointOf i) (f.pointOf j) := by
  cases h with
  | next instr hi ht =>
      refine .inl ⟨?_, Nat.lt_succ_self i⟩
      show f.blockOf i = f.blockOf (i + 1)
      rw [Function.blockOf_succ hi, if_neg ht, Nat.add_zero]
  | jump instr b _ hi ht hb hstart =>
      refine .inr (.single ?_)
      show f.Linked (f.blockOf i) (f.blockOf j)
      rw [(Function.blockOf_start he.describes.starts hstart).1]
      exact he.targets.linked hi ht hb

/-- Where control comes to from behind a point, it comes to from the point. -/
theorem before_of_path (he : p.Entry as f a) {q : Point} {i j : Nat} (hi : f.Before q (f.pointOf i))
    (h : Relation.ReflTransGen (f.Goes a.starts) i j) : f.Before q (f.pointOf j) := by
  induction h with
  | refl => exact hi
  | tail _ hstep ih => exact ih.trans (he.before_of_goes hstep)

/-- From behind the last read of an identifier control does not come to another read of it, if the
    analysis keeps the identifier for that read. -/
theorem not_read_of_path (he : p.Entry as f a) {i j : Nat} {id : Id} {last : Point}
    (hlast : a.lastRead? id = some last) (hi : f.Before last (f.pointOf i))
    (hpath : Relation.ReflTransGen (f.Goes a.starts) i j) {instr : Instr}
    (hj : f.instrs[j]? = some instr) (hout : a.flow.LeadsOut (f.blockOf j)) : id ∉ instr.reads := by
  intro hid
  obtain ⟨last', hlast', hno⟩ := he.describes.covers hj hout hid
  obtain rfl : last = last' := Option.some.inj (hlast.symm.trans hlast')
  exact hno (he.before_of_path hi hpath)

end Program.Entry

/-! ## Dropped identifiers -/

namespace Lane

/-- An identifier was assigned and is no longer in scope. -/
structure Dropped (l : Lane) (id : Id) : Prop where
  assigned : (l.value? id).isSome
  scope : ¬ l.isLive id

variable {l l' : Lane} {id : Id}

instance : Decidable (l.Dropped id) :=
  decidable_of_iff ((l.value? id).isSome ∧ ¬ l.isLive id)
    ⟨fun ⟨hassigned, hscope⟩ => ⟨hassigned, hscope⟩, fun h => ⟨h.assigned, h.scope⟩⟩

theorem dropped_iff : l.Dropped id ↔
    ∃ c, l.cells[id.index]? = some c ∧ c.value.isSome ∧ ¬ c.isLive := by
  by_cases hlt : id.index < l.cells.size
  · have hcell := Array.getElem?_eq_getElem hlt
    constructor
    · rintro ⟨hassigned, hscope⟩
      rw [value?, if_pos hlt, hcell] at hassigned
      rw [isLive, if_pos hlt, hcell] at hscope
      exact ⟨_, hcell, hassigned, hscope⟩
    · rintro ⟨c, hc, hassigned, hscope⟩
      constructor
      · rwa [value?, if_pos hlt, hc]
      · rwa [isLive, if_pos hlt, hc]
  · constructor
    · rintro ⟨hassigned, hscope⟩
      rw [isLive, if_neg hlt] at hscope
      rw [value?, if_neg hlt] at hassigned
      simp only [Bool.or_eq_true, decide_eq_true_eq, not_or] at hscope
      rw [if_neg hscope.1, if_neg hscope.2] at hassigned
      cases hassigned
    · rintro ⟨c, hc, -⟩
      rw [Array.getElem?_eq_none (Nat.le_of_not_lt hlt)] at hc
      cases hc

theorem dropped_of_frame (h : l'.frame = l.frame) : l'.Dropped id ↔ l.Dropped id := by
  constructor
  · rintro ⟨hassigned, hscope⟩
    exact ⟨isSome_value_of_frame h id ▸ hassigned, isLive_of_frame h id ▸ hscope⟩
  · rintro ⟨hassigned, hscope⟩
    exact ⟨(isSome_value_of_frame h id).symm ▸ hassigned, (isLive_of_frame h id).symm ▸ hscope⟩

theorem dropped_of_cells (h : l'.cells = l.cells) : l'.Dropped id ↔ l.Dropped id := by
  rw [dropped_iff, dropped_iff, h]

/-- What a lane drops it has dropped before, or its last read is behind. -/
theorem dropped_of_retire {a : FunctionAnalysis} {keep : Option Id}
    (h : (l.retire a keep).Dropped id) :
    l.Dropped id ∨ ∃ last, a.lastRead? id = some last ∧ l.point.isAfter last a.flow := by
  obtain ⟨c', hc', hassigned, hscope⟩ := dropped_iff.1 h
  simp only [retire, Array.getElem?_mapIdx, Option.map_eq_some_iff] at hc'
  obtain ⟨c, hc, rfl⟩ := hc'
  by_cases hretires : retires a l.point keep ⟨id.index⟩ c
  · right
    simp only [retires, Bool.and_eq_true] at hretires
    exact (Option.any_eq_true _ _).1 hretires.2
  · rw [if_neg hretires] at hassigned hscope
    exact .inl (dropped_iff.2 ⟨c, hc, hassigned, hscope⟩)

/-- To assign a value to one identifier leaves the others as they are. -/
theorem getElem?_cells_assign {id' : Id} (hid : id' ≠ id) (v : Variable) :
    (l.assign id' v).cells[id.index]? = l.cells[id.index]? := by
  have hindex : id'.index ≠ id.index := by
    intro heq
    exact hid (congrArg Id.mk heq)
  unfold assign
  split
  · exact Array.getElem?_modify.trans (if_neg hindex)
  · split
    · rfl
    · split <;> rfl

/-- An identifier that is assigned and brought into scope is not dropped, and no other is. -/
theorem dropped_of_assign {v : Variable} {id' : Id}
    (h : ((l.assign id' v).bringIntoScope id').Dropped id) : l.Dropped id := by
  obtain ⟨c, hc, hassigned, hscope⟩ := dropped_iff.1 h
  simp only [bringIntoScope, Array.getElem?_modify] at hc
  split at hc
  · obtain ⟨c', -, rfl⟩ := Option.map_eq_some_iff.1 hc
    exact absurd rfl hscope
  · next hindex =>
      rw [getElem?_cells_assign fun heq => hindex (congrArg Id.index heq)] at hc
      exact dropped_iff.2 ⟨c, hc, hassigned, hscope⟩

/-! ## Behind the last read -/

/-- A lane is behind the last read of each identifier that it has dropped. Global variables apart. -/
def Behind (f : Function) (a : FunctionAnalysis) (globals : List GlobalVar) (l : Lane) : Prop :=
  ∀ id, l.Dropped id → (∀ g ∈ globals, g.id ≠ id) →
    ∃ last, a.lastRead? id = some last ∧ f.Before last l.point

variable {p : Program} {b : Bindings} {as : Analyses} {liveGlobals : Array Bool} {f : Function}
  {a : FunctionAnalysis} {gs : List GlobalVar}

theorem Behind.of_dropped (h : l.Behind f a gs) (hpoint : l'.point = l.point)
    (hdropped : ∀ id, l'.Dropped id → l.Dropped id) : l'.Behind f a gs := by
  intro id hid hglobal
  rw [hpoint]
  exact h id (hdropped id hid) hglobal

/-- A lane that goes on stays behind what it is behind. -/
theorem Behind.later (h : l.Behind f a gs) (hpoint : f.Before l.point l'.point)
    (hdropped : ∀ id, l'.Dropped id → l.Dropped id) : l'.Behind f a gs := by
  intro id hid hglobal
  obtain ⟨last, hlast, hbefore⟩ := h id (hdropped id hid) hglobal
  exact ⟨last, hlast, hbefore.trans hpoint⟩

theorem Behind.retire (he : p.Entry as f a) (h : l.Behind f a gs) (keep : Option Id) :
    (l.retire a keep).Behind f a gs := by
  intro id hid hglobal
  rcases dropped_of_retire hid with hid | ⟨last, hlast, hafter⟩
  · exact h id hid hglobal
  · exact ⟨last, hlast, .of_isAfter he.describes.flow hafter⟩

theorem point_skipNops (l : Lane) (p : Program) :
    ∃ n, (l.skipNops p).point = ⟨l.block, l.instr + n⟩ := by
  unfold skipNops
  split
  · exact ⟨0, rfl⟩
  · exact ⟨_, rfl⟩

/-- Moving past markers leaves a lane in its block. -/
theorem Behind.skipNops (h : l.Behind f a gs) (p : Program) : (l.skipNops p).Behind f a gs := by
  have hdropped : ∀ id, (l.skipNops p).Dropped id → l.Dropped id :=
    fun id => (dropped_of_cells (cells_skipNops l p)).1
  obtain ⟨n, hpoint⟩ := point_skipNops l p
  cases n with
  | zero => exact h.of_dropped hpoint hdropped
  | succ n =>
      refine h.later (hpoint ▸ .inl ⟨rfl, ?_⟩) hdropped
      show l.instr < l.instr + (n + 1)
      omega

/-- A step that succeeds leaves a lane that still runs behind what it has dropped. -/
theorem Behind.step (he : p.Entry as f a) (hsound : l.place.Sound f a p.entry)
    (h : l.Behind f a gs) {s : Setting} {w : World} {state : StepState} (hl : ¬ l.isFinished)
    (hp : s.program = p) (has : s.analyses = as) (hok : (l.step s w).result = .ok state)
    (hl' : ¬ (l.step s w).lane.isFinished) : (l.step s w).lane.Behind f a gs := by
  obtain ⟨a', i, l₁, hnext, hframe, hconcludes⟩ := step_cases hl hok
  obtain ⟨i', hnext', hi, -⟩ := next_of_step he.enters hsound.function hl hp has hok
  rw [hp, has, hnext'] at hnext
  cases hnext
  have hplace : l₁.place = l.advanced.place := place_of_frame hframe
  have hdropped : ∀ id, l₁.Dropped id → l.Dropped id := by
    intro id hid
    have hcells : l.advanced.cells = l.cells := rfl
    exact (dropped_of_cells hcells).1 ((dropped_of_frame hframe).1 hid)
  have hblock₁ : l₁.block = l.block := congrArg Place.block hplace
  have hinstr₁ : l₁.instr = l.instr + 1 := congrArg Place.instr hplace
  -- the instruction only goes further, and what is dropped then is behind the lane already
  have h₁ : l₁.Behind f a gs := by
    refine h.later (.inl ⟨hblock₁.symm, ?_⟩) hdropped
    show l.instr < l₁.instr
    omega
  generalize (l.step s w).lane = l' at hconcludes hl'
  cases hconcludes with
  | proceed ht => exact h₁.retire he none
  | assign id v ht hid =>
      exact (h₁.retire he (some id)).of_dropped
        (congrArg (fun q : Place => (⟨q.block, q.instr⟩ : Point)) (place_assign id v))
        fun _ => dropped_of_assign
  | jump c l₂ ht hc hjump =>
      obtain ⟨start, hstart, hplace₂⟩ := place_of_jumpTo hjump
      refine Behind.retire he ?_ none
      have hcells : l₂.cells = l₁.cells := by
        obtain ⟨_, -, rfl⟩ := jumpTo_ok hjump
        rfl
      -- a jump goes to a block behind the lane's own, whatever is read in between
      refine h.later (.inr (.single ?_)) fun id hid =>
        hdropped id ((dropped_of_cells hcells).1 hid)
      show f.Linked l.block l₂.block
      rw [show l₂.block = c from congrArg Place.block hplace₂]
      exact hsound.link he.targets hi ht hc
  | leave => exact absurd (isFinished_of_stop (.inr rfl)) hl'
  | kill => exact absurd (isFinished_of_stop (.inl rfl)) hl'

theorem getElem?_cells_bindGlobals {gs : List GlobalVar} {id : Id} (hid : ∀ g ∈ gs, g.id ≠ id) :
    (l.bindGlobals gs).1.cells[id.index]? = l.cells[id.index]? :=
  bindGlobals_induction (P := fun l' => l'.cells[id.index]? = l.cells[id.index]?) rfl fun {_ g} hg h =>
    (getElem?_cells_assign (hid g hg) g.value).trans h

/-- A lane that has entered the program has dropped nothing. -/
theorem behind_of_enter {index : Nat} {init : LaneInit}
    (h : (Lane.new index p init).enter p b as liveGlobals = (.ok (), l)) : l.Behind f a b.globals := by
  obtain ⟨a', l₁, -, hbind, rfl⟩ := eq_of_enter h
  intro id hid hglobal
  exfalso
  obtain ⟨c, hc, hassigned, -⟩ := dropped_iff.1 hid
  rw [cells_skipNops, scopeGlobals, Array.getElem?_mapIdx] at hc
  obtain ⟨c₁, hc₁, rfl⟩ := Option.map_eq_some_iff.1 hc
  have hnew := getElem?_cells_bindGlobals (l := Lane.new index p init) hglobal
  rw [hbind] at hnew
  have hcell : (Lane.new index p init).cells[id.index]? = some c₁ := hnew.symm.trans hc₁
  rw [Lane.new, Array.getElem?_replicate] at hcell
  split at hcell
  · cases hcell
    split at hassigned <;> cases hassigned
  · cases hcell

/-- A lane that is not finished is behind what it has dropped. -/
theorem Run.behind (he : p.Entry as f a) (h : l.Run p b as liveGlobals) (hl : ¬ l.isFinished) :
    l.Behind f a b.globals := by
  induction h with
  | entered h => exact behind_of_enter h
  | @stepped l s w state hrun hp has h ih =>
      by_cases hfin : l.isFinished
      · rw [step_of_isFinished hfin] at hl ⊢
        exact ih hl
      · exact (ih hfin).step he (hrun.sound he hfin) hfin hp has h hl
  | @refreshed l l' memory hrun h ih =>
      have hframe := frame_refreshGlobals l memory b.globals
      rw [h] at hframe
      have hplace := place_of_frame hframe
      rw [isFinished_of_place hplace] at hl
      exact (ih hl).of_dropped (congrArg (fun q : Place => (⟨q.block, q.instr⟩ : Point)) hplace)
        fun id => (dropped_of_frame hframe).1
  | skipped _ ih =>
      rw [isFinished_skipNops] at hl
      exact (ih hl).skipNops p

/-- A function without loops loses no identifier too early. In every run of a lane, an identifier that
    was assigned and is not that of a global variable is in scope when the next instruction reads it;
    and once it is no longer in scope, control does not come from there to another read of it. -/
theorem Run.no_early_drop {offset : Nat} {id : Id} (hf : p.entryFunction? = some f)
    (hbuild : FunctionAnalysis.ofFunction p p.entry offset = .ok a) (ha : as.of? p.entry = some a)
    (htargets : f.TargetsAgree) (hloops : a.flow.loops = []) (h : l.Run p b as liveGlobals)
    (hl : ¬ l.isFinished) (hassigned : (l.value? id).isSome) (hglobal : ∀ g ∈ b.globals, g.id ≠ id) :
    (∀ a' i, l.nextInstr p as = .ok (a', i) → id ∈ i.reads → l.isLive id) ∧
      (¬ l.isLive id → ∀ j i, Relation.ReflTransGen (f.Goes a.starts) l.instr j →
        f.instrs[j]? = some i → id ∉ i.reads) := by
  obtain ⟨f', hf', hdescribes⟩ := FunctionAnalysis.describes_of_ofFunction hbuild
  obtain rfl : f = f' := Option.some.inj (hf.symm.trans hf')
  have he : p.Entry as f a := ⟨hf, ha, hdescribes, htargets⟩
  have hsound := h.sound he hl
  have hpoint : l.point = f.pointOf l.instr := congrArg (Point.mk · l.instr) hsound.block
  have hpaths : ¬ l.isLive id → ∀ j i, Relation.ReflTransGen (f.Goes a.starts) l.instr j →
      f.instrs[j]? = some i → id ∉ i.reads := by
    intro hscope j i hpath hi
    obtain ⟨last, hlast, hbefore⟩ := h.behind he hl id ⟨hassigned, hscope⟩ hglobal
    exact he.not_read_of_path hlast (hpoint ▸ hbefore) hpath hi (.of_loops hloops _)
  refine ⟨?_, hpaths⟩
  intro a' i hnext hid
  -- to read it at once is to come to a read of it without going on
  by_contra hscope
  obtain ⟨-, f', hf', hi⟩ := nextInstr_eq_ok hnext
  rw [show l.function = p.entry from hsound.function, he.function] at hf'
  cases hf'
  exact hpaths hscope l.instr i .refl hi hid

/-- A program that reads `%0` in its first block and in none of the others. -/
def readBeforeBranch : Program :=
  { stage := .compute
    functions := #[{
      name := "readBeforeBranch"
      blocks := #[{}, { preds := [0] }, { preds := [0, 1] }]
      instrs := #[
        { op := .call, ty := .int 32, result := some ⟨0⟩,
          callee := some (.intrinsic .flattenedThreadIdInGroup) },
        { op := .add, ty := .int 32, result := some ⟨1⟩, args := [.ref ⟨0⟩, .ref ⟨0⟩] },
        { op := .br, args := [.block 1, .block 2, .ref ⟨1⟩] },
        { op := .br, args := [.block 2] },
        { op := .ret }] }]
    idCount := 2 }

/-- A lane of this program has `%0` in scope when it comes to the addition. It has dropped it behind the
    branch, from where control does not come to another read. -/
theorem readBeforeBranch_drops :
    ∃ (s₀ : Session) (a : FunctionAnalysis) (l l' : Lane),
      Session.new readBeforeBranch {} {} [.numbered 0] 0 {} = .ok s₀ ∧ s₀.analyses.of? 0 = some a ∧
      l.Run readBeforeBranch s₀.bindings s₀.analyses s₀.liveGlobals ∧ l.instr = 1 ∧ l.isLive ⟨0⟩ ∧
      l'.Run readBeforeBranch s₀.bindings s₀.analyses s₀.liveGlobals ∧ l'.instr = 4 ∧ ¬ l'.isLive ⟨0⟩ ∧
      ∀ f j i, readBeforeBranch.entryFunction? = some f → Relation.ReflTransGen (f.Goes a.starts) l'.instr j →
        f.instrs[j]? = some i → ⟨0⟩ ∉ i.reads := by
  have h : ∃ s₀, Session.new readBeforeBranch {} {} [.numbered 0] 0 {} = .ok s₀ ∧
      (∀ g ∈ s₀.bindings.globals, g.id ≠ ⟨0⟩) ∧
      (s₀.analyses.of? 0).any (fun a => a.flow.loops = []) ∧
      ∃ states, s₀.start.result = .ok states ∧
      ∃ s, s₀.start.session.advance .unbound 1 = .ok s ∧
      ∃ s', s₀.start.session.advance .unbound 3 = .ok s' ∧
        (s.lanes[0]?).any (fun l => !l.isFinished && (l.value? ⟨0⟩).isSome && l.instr = 1 &&
          (l.nextInstr readBeforeBranch s₀.analyses).toOption.any (fun i => i.2.reads = [⟨0⟩, ⟨0⟩])) ∧
        (s'.lanes[0]?).any (fun l => !l.isFinished && (l.value? ⟨0⟩).isSome && l.instr = 4 &&
          !l.isLive ⟨0⟩) := by
    decide +kernel
  obtain ⟨s₀, hnew, hglobal, ha, states, hstart, s, hs, s', hs', hl, hl'⟩ := h
  obtain ⟨a, ha, hloops⟩ := (Option.any_eq_true _ _).1 ha
  obtain ⟨l, hmem, hl⟩ := (Option.any_eq_true _ _).1 hl
  obtain ⟨l', hmem', hl'⟩ := (Option.any_eq_true _ _).1 hl'
  simp only [Bool.and_eq_true, Bool.not_eq_true', decide_eq_true_eq] at hl hl' hloops
  have hfresh := Session.fresh_of_new hnew
  have hreached := Session.Reached.started hstart
  have hrun := (hreached.advance hs).run hfresh (List.mem_of_getElem? hmem)
  have hrun' := (hreached.advance hs').run hfresh (List.mem_of_getElem? hmem')
  obtain ⟨offset, hbuild⟩ := FunctionAnalysis.ofFunction_of_ofProgram hfresh.analyses ha
  have htargets : Function.TargetsAgree readBeforeBranch.functions[0] := by decide
  obtain ⟨⟨⟨hfin, hassigned⟩, hinstr⟩, hnext⟩ := hl
  obtain ⟨⟨⟨hfin', hassigned'⟩, hinstr'⟩, hscope'⟩ := hl'
  have hlive : l.isLive ⟨0⟩ := by
    cases hstep : l.nextInstr readBeforeBranch s₀.analyses with
    | error fault =>
        rw [hstep] at hnext
        cases hnext
    | ok next =>
        rw [hstep] at hnext
        refine (Run.no_early_drop rfl hbuild ha htargets hloops hrun (by simp [hfin]) hassigned
          hglobal).1 next.1 next.2 hstep ?_
        simp [show next.2.reads = [⟨0⟩, ⟨0⟩] by simpa [Except.toOption] using hnext]
  refine ⟨s₀, a, l, l', hnew, ha, hrun, hinstr, hlive, hrun', hinstr', by simp [hscope'], ?_⟩
  intro f j i hf
  cases hf
  exact (Run.no_early_drop rfl hbuild ha htargets hloops hrun' (by simp [hfin']) hassigned'
    hglobal).2 (by simp [hscope']) j i

end Lane

end Lockstep
