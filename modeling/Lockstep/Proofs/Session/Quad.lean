import Lockstep.Host.Unbound
import Lockstep.Proofs.Flow.Names
import Lockstep.Proofs.Lane.Barrier
import Lockstep.Proofs.Lane.Value
import Lockstep.Proofs.Session.Canonical
import Lockstep.Proofs.Session.Order
import Lockstep.Proofs.Session.Turns

set_option autoImplicit false

/-! # Derivatives of a quad

A derivative is taken from the values that the lanes of the quad had when the round began, although
some of the lanes that it looks at have already stepped: these still say that they are where they
were, and a derivative does not assign its own operand. So every lane can take its derivative, and it
does not matter in which order the lanes do (`Session.derivative_reads_start`). -/

namespace Lockstep

/-! ## Differences -/

namespace Variable

theorem shape_flushed (v : Variable) :
    v.flushed.elem = v.elem ∧ v.flushed.rows = v.rows ∧ v.flushed.columns = v.columns := by
  unfold flushed
  split <;> exact ⟨rfl, rfl, rfl⟩

/-- The components of a variable whose subnormals are replaced. -/
theorem get_flushed (v : Variable) {c : Nat} (hc : c < v.compCount) :
    v.flushed.get c = v.elem.flush (v.get c) := by
  unfold flushed
  by_cases helem : v.elem = .float
  · rw [if_pos helem, get_fill v _ hc]
    by_cases h : c < 16
    · rw [if_pos h]
    · rw [if_neg h, v.get_of_ge (Nat.le_of_not_lt h), helem]
      rfl
  · rw [if_neg helem]
    exact (if_neg fun h => helem h.1).symm

end Variable

theorem ElemType.floatFormat_of_isFloat {elem : ElemType} (h : elem.isFloat) :
    ∃ f ∈ [FloatFormat.half, .single, .double], elem.floatFormat? = some f := by
  cases elem with
  | half => exact ⟨.half, by simp, rfl⟩
  | float => exact ⟨.single, by simp, rfl⟩
  | double => exact ⟨.double, by simp, rfl⟩
  | _ => cases h

/-- The difference of two values of one float type and shape. -/
theorem difference_ok (base neighbour : Variable) (h : base.elem.isFloat) :
    ∃ v, difference base neighbour = .ok v ∧ v.elem = base.elem ∧ v.rows = base.rows ∧
      v.columns = base.columns ∧ ∀ c < v.compCount,
        base.elem.floatOp? .sub (neighbour.get c) (base.get c) = some (v.get c) := by
  obtain ⟨f, hf, hformat⟩ := ElemType.floatFormat_of_isFloat h
  have hsub : ∀ a b, base.elem.floatOp? .sub a b = some (FloatOp.sub.apply f a b) := by
    intro a b
    rw [ElemType.floatOp?, hformat, Option.map_some]
  -- past the last component there are zeros, and so is their difference
  have hzero : ∀ f ∈ [FloatFormat.half, .single, .double], FloatOp.sub.apply f 0 0 = 0 := by
    decide +kernel
  unfold difference Variable.fillOr
  simp only [hsub, Option.isSome_some, List.all_eq_true, implies_true, if_true, Option.getD_some]
  refine ⟨_, rfl, rfl, rfl, rfl, fun c hc => ?_⟩
  rw [Variable.get_fill base _ hc]
  by_cases hlt : c < 16
  · rw [if_pos hlt]
  · rw [if_neg hlt, base.get_of_ge (Nat.le_of_not_lt hlt), neighbour.get_of_ge (Nat.le_of_not_lt hlt),
      hzero f hf]

/-! ## Derivatives -/

/-- The lanes of a quad whose values a derivative subtracts for the lane `k`, the base first. A quad has
    its lanes in the order top left, top right, bottom left, bottom right. A coarse derivative takes those
    of the upper row or of the left column for every lane, a fine one those of the lane's own row or
    column. -/
inductive Intrinsic.Subtracts : Intrinsic → Nat → Nat → Nat → Prop
  | coarseRow {k : Nat} : Subtracts .derivCoarseX k 0 1
  | coarseColumn {k : Nat} : Subtracts .derivCoarseY k 0 2
  | upperRow {k : Nat} (h : k = 0 ∨ k = 1) : Subtracts .derivFineX k 0 1
  | lowerRow {k : Nat} (h : k = 2 ∨ k = 3) : Subtracts .derivFineX k 2 3
  | leftColumn {k : Nat} (h : k = 0 ∨ k = 2) : Subtracts .derivFineY k 0 2
  | rightColumn {k : Nat} (h : k = 1 ∨ k = 3) : Subtracts .derivFineY k 1 3

/-- The lanes that a derivative subtracts are those that the lane takes, and lanes of the quad. -/
theorem Intrinsic.exists_derivative {op : Intrinsic}
    (h : op ∈ [.derivCoarseX, .derivCoarseY, .derivFineX, .derivFineY]) :
    ∃ axis fine, op.derivative? = some (axis, fine) ∧ ∀ k < quadSize,
      op.Subtracts k (quadPair k axis fine).1 (quadPair k axis fine).2 := by
  simp only [List.mem_cons, List.not_mem_nil, or_false] at h
  rcases h with rfl | rfl | rfl | rfl
  · exact ⟨.x, false, rfl, fun k _ => .coarseRow⟩
  · exact ⟨.y, false, rfl, fun k _ => .coarseColumn⟩
  · refine ⟨.x, true, rfl, fun k hk => ?_⟩
    match k, hk with
    | 0, _ => exact .upperRow (.inl rfl)
    | 1, _ => exact .upperRow (.inr rfl)
    | 2, _ => exact .lowerRow (.inl rfl)
    | 3, _ => exact .lowerRow (.inr rfl)
  · refine ⟨.y, true, rfl, fun k hk => ?_⟩
    match k, hk with
    | 0, _ => exact .leftColumn (.inl rfl)
    | 1, _ => exact .rightColumn (.inl rfl)
    | 2, _ => exact .leftColumn (.inr rfl)
    | 3, _ => exact .rightColumn (.inr rfl)

/-- The lanes that a derivative subtracts are lanes of the quad. -/
theorem quadPair_lt {lane : Nat} (axis : Axis) (fine : Bool) (h : lane < quadSize) :
    (quadPair lane axis fine).1 < quadSize ∧ (quadPair lane axis fine).2 < quadSize := by
  unfold quadSize at h ⊢
  cases axis <;> cases fine <;> simp only [quadPair] <;> omega

namespace Lane

variable {l : Lane} {i : Instr} {axis : Axis} {fine : Bool} {x r : Id}

/-- The derivative of an identifier, from lanes that are at one place and have it. -/
theorem derivativeOf_eq {lanes : List Lane} {op : Intrinsic} {u : Nat → Variable} (hstage : l.stage = .pixel)
    (hfour : lanes.length = quadSize) (hdiv : ¬ diverged lanes)
    (hu : ∀ j < quadSize, ∃ l', lanes[j]? = some l' ∧ l'.value? x = some (u j))
    (hl : l.index < quadSize) (hoperand : i.args.head? = some (.ref x)) (hresult : i.result = some r) :
    l.derivativeOf lanes i op axis fine =
      (difference (u (quadPair l.index axis fine).1).flushed (u (quadPair l.index axis fine).2).flushed).map
        fun v => .value r (v.withName (i.resultName r)) := by
  have hvalue : ∀ j < quadSize, valueIn lanes j (.ref x) = .ok (u j).flushed := by
    intro j hj
    obtain ⟨l', hl', hx⟩ := hu j hj
    unfold valueIn
    rw [hl']
    simp only [operand, hx, if_true, Except.map]
  obtain ⟨hbase, hneighbour⟩ := quadPair_lt axis fine hl
  have hderivative : l.derivative lanes (.ref x) axis fine =
      difference (u (quadPair l.index axis fine).1).flushed (u (quadPair l.index axis fine).2).flushed := by
    unfold derivative
    rw [if_neg (not_not_intro hfour), if_neg hdiv]
    show (valueIn lanes (quadPair l.index axis fine).1 (.ref x) >>= fun a =>
      valueIn lanes (quadPair l.index axis fine).2 (.ref x) >>= fun b => difference a b) = _
    rw [hvalue _ hbase, hvalue _ hneighbour]
    rfl
  have hquad : isPixelQuad l.stage lanes := by
    rw [isPixelQuad, hstage, hfour]
    rfl
  unfold derivativeOf Instr.blank Instr.resultId
  rw [hresult, hoperand]
  show (if !isPixelQuad l.stage lanes then _ else _ : Except Fault Effect) = _
  rw [if_neg (by simp [hquad]), hderivative, Variable.name_zeroed]
  cases difference (u (quadPair l.index axis fine).1).flushed (u (quadPair l.index axis fine).2).flushed <;> rfl

end Lane

namespace Session

variable {p : Program} {s₀ s : Session} {host : Host} {i : Instr} {op : Intrinsic} {x r : Id}
  {elem : ElemType} {rows columns : UInt8}

/-- The lanes of a pixel quad are all about to take a derivative, `op`, of an identifier of which they have
    values of one float type and shape. -/
structure AtDerivative (s : Session) (i : Instr) (op : Intrinsic) (x r : Id)
    (elem : ElemType) (rows columns : UInt8) : Prop where
  stage : s.program.stage = .pixel
  four : s.lanes.length = quadSize
  running : ∀ l ∈ s.lanes, ¬ l.isFinished
  together : ∃ n, ∀ l ∈ s.lanes, l.instr = n
  next : ∀ l ∈ s.lanes, ∃ a, l.nextInstr s.program s.analyses = .ok (a, i)
  call : i.op = .call
  callee : i.callee = some (.intrinsic op)
  derivative : op ∈ [.derivCoarseX, .derivCoarseY, .derivFineX, .derivFineY]
  operand : i.args.head? = some (.ref x)
  result : i.result = some r
  apart : r ≠ x
  float : elem.isFloat
  value : ∀ l ∈ s.lanes, ∃ v, l.value? x = some v ∧ v.elem = elem ∧ v.rows = rows ∧ v.columns = columns

/-- The lanes of a group are where those of a session are, and have the same value of an identifier. -/
structure ShownBy (s : Session) (x : Id) (lanes : List Lane) : Prop where
  length : lanes.length = s.lanes.length
  lane : ∀ {j : Nat} {l' : Lane}, lanes[j]? = some l' →
    ∃ l, s.lanes[j]? = some l ∧ l'.position = l.position ∧ l'.value? x = l.value? x

theorem ShownBy.refl (s : Session) (x : Id) : s.ShownBy x s.lanes :=
  ⟨rfl, fun {_ l} hl => ⟨l, hl, rfl, rfl⟩⟩

/-- A lane that is past its instruction shows the same. -/
theorem ShownBy.advanced {lanes : List Lane} {k : Nat} {l : Lane} (h : s.ShownBy x lanes)
    (hl : lanes[k]? = some l) : s.ShownBy x (lanes.set k l.advanced) := by
  refine ⟨by rw [List.length_set, h.length], fun {j l'} hl' => ?_⟩
  by_cases hj : k = j
  · subst hj
    rw [List.getElem?_set_self (List.getElem?_eq_some_iff.1 hl).1] at hl'
    obtain rfl := Option.some.inj hl'
    obtain ⟨l₀, hl₀, hposition, hvalue⟩ := h.lane hl
    exact ⟨l₀, hl₀, hposition, hvalue⟩
  · rw [List.getElem?_set_ne hj] at hl'
    exact h.lane hl'

namespace AtDerivative

variable {f : Function} {a : FunctionAnalysis} {k : Nat} {l : Lane}

/-- Lanes that show what those at the derivative do have not diverged. -/
theorem not_diverged (h : s.AtDerivative i op x r elem rows columns) (hsettled : s.Settled f a)
    {lanes : List Lane} (hshown : s.ShownBy x lanes) : ¬ diverged lanes := by
  obtain ⟨n, hn⟩ := h.together
  have hposition : ∀ l ∈ s.lanes, ∀ l' ∈ s.lanes, l.position = l'.position := by
    intro l hl l' hl'
    have hfin := h.running l hl
    have hfin' := h.running l' hl'
    refine (Lane.position_eq_iff (hsettled.numbered l hl hfin) (hsettled.numbered l' hl' hfin')
      (hsettled.rest l hl hfin) (hsettled.rest l' hl' hfin')).2 ?_
    rw [hn l hl, hn l' hl']
  rw [diverged_iff]
  rintro ⟨m, hm, m', hm', -, -, hne⟩
  obtain ⟨j, hj⟩ := List.getElem?_of_mem hm
  obtain ⟨j', hj'⟩ := List.getElem?_of_mem hm'
  obtain ⟨l, hl, hl₁, -⟩ := hshown.lane hj
  obtain ⟨l', hl', hl₂, -⟩ := hshown.lane hj'
  refine hne ?_
  rw [hl₁, hl₂]
  exact hposition l (List.mem_of_getElem? hl) l' (List.mem_of_getElem? hl')

theorem intrinsic?_eq (h : s.AtDerivative i op x r elem rows columns) : i.intrinsic? = some op := by
  unfold Instr.intrinsic?
  rw [h.call, h.callee]

/-- The values that a derivative subtracts, and what it makes of them in any group that shows what the
    lanes do. -/
theorem exists_value (h : s.AtDerivative i op x r elem rows columns) (hsettled : s.Settled f a)
    (axis : Axis) (fine : Bool) (hstage : l.stage = .pixel) (hl : s.lanes[k]? = some l) :
    ∃ base neighbour u v w,
      (s.lanes[(quadPair k axis fine).1]? = some base ∧ base.value? x = some u) ∧
      (s.lanes[(quadPair k axis fine).2]? = some neighbour ∧ neighbour.value? x = some v) ∧
      (w.elem = elem ∧ w.rows = rows ∧ w.columns = columns) ∧
      (∀ c < w.compCount,
        elem.floatOp? .sub (elem.flush (v.get c)) (elem.flush (u.get c)) = some (w.get c)) ∧
      ∀ lanes, s.ShownBy x lanes →
        l.advanced.derivativeOf lanes i op axis fine = .ok (.value r w) := by
  have hindex : l.index = k := hsettled.index hl
  have hk : k < quadSize := h.four ▸ (List.getElem?_eq_some_iff.1 hl).1
  -- the value of each lane of the quad
  have hvalue : ∀ j < quadSize, ∃ l, s.lanes[j]? = some l ∧ ∃ v, l.value? x = some v ∧
      v.elem = elem ∧ v.rows = rows ∧ v.columns = columns := by
    intro j hj
    have hj := List.getElem?_eq_getElem (h.four ▸ hj : j < s.lanes.length)
    exact ⟨_, hj, h.value _ (List.mem_of_getElem? hj)⟩
  obtain ⟨hbase, hneighbour⟩ := quadPair_lt axis fine hk
  obtain ⟨base, hbase, u, hu, huelem, hurows, hucolumns⟩ := hvalue _ hbase
  obtain ⟨neighbour, hneighbour, v, hv, hvelem, hvrows, hvcolumns⟩ := hvalue _ hneighbour
  obtain ⟨huelem', hurows', hucolumns'⟩ := u.shape_flushed
  obtain ⟨hvelem', hvrows', hvcolumns'⟩ := v.shape_flushed
  obtain ⟨d, hd, hdelem, hdrows, hdcolumns, hdget⟩ :=
    difference_ok u.flushed v.flushed (by rw [huelem', huelem]; exact h.float)
  have hdrows : d.rows = rows := hdrows.trans (hurows'.trans hurows)
  have hdcolumns : d.columns = columns := hdcolumns.trans (hucolumns'.trans hucolumns)
  refine ⟨base, neighbour, u, v, d.withName (i.resultName r), ⟨hbase, hu⟩, ⟨hneighbour, hv⟩,
    ⟨hdelem.trans (huelem'.trans huelem), hdrows, hdcolumns⟩, fun c hc => ?_, fun lanes hshown => ?_⟩
  · have hc : c < rows.toNat * columns.toNat := by rwa [← hdrows, ← hdcolumns]
    have hget := hdget c (by rwa [Variable.compCount, hdrows, hdcolumns])
    rwa [u.get_flushed (by rwa [Variable.compCount, hurows, hucolumns]),
      v.get_flushed (by rwa [Variable.compCount, hvrows, hvcolumns]), huelem', huelem, hvelem] at hget
  · -- the group is a quad at one place
    have hfour : lanes.length = quadSize := hshown.length.trans h.four
    have hdiv := h.not_diverged hsettled hshown
    let values : Nat → Variable := fun j => ((s.lanes[j]?.bind (·.value? x)).getD .empty)
    have hshows : ∀ j < quadSize, ∃ l', lanes[j]? = some l' ∧ l'.value? x = some (values j) := by
      intro j hj
      have hj' := List.getElem?_eq_getElem (hfour ▸ hj : j < lanes.length)
      obtain ⟨l₀, hl₀, -, hx⟩ := hshown.lane hj'
      obtain ⟨l₁, hl₁, v, hv, -⟩ := hvalue j hj
      obtain rfl : l₀ = l₁ := Option.some.inj (hl₀.symm.trans hl₁)
      refine ⟨_, hj', hx.trans ?_⟩
      simp only [values, hl₀, hv, Option.bind_some, Option.getD_some]
    have hvalues : values (quadPair k axis fine).1 = u ∧ values (quadPair k axis fine).2 = v := by
      simp only [values, hbase, hu, hneighbour, hv, Option.bind_some, Option.getD_some, and_self]
    rw [Lane.derivativeOf_eq (l := l.advanced) (r := r) hstage hfour hdiv hshows (hindex ▸ hk) h.operand
      h.result]
    show (difference (values (quadPair l.index axis fine).1).flushed
      (values (quadPair l.index axis fine).2).flushed).map _ = _
    rw [hindex, hvalues.1, hvalues.2, hd]
    rfl

/-- What is known of the lanes of a session whose program has been analysed. -/
structure Ready (s : Session) (f : Function) (a : FunctionAnalysis) (r : Id) : Prop where
  settled : s.Settled f a
  stage : ∀ l ∈ s.lanes, l.stage = .pixel
  place : ∀ l ∈ s.lanes, l.hasPlace r

theorem ready (h : s.AtDerivative i op x r elem rows columns) (hfresh : Fresh p s₀)
    (hs : s₀.Reached s) : ∃ f a, Ready s f a r := by
  obtain ⟨f, a, hsettled⟩ := Settled.of_reached hfresh hs
  have hprogram : s.program = p := hs.program_eq.trans hfresh.program
  have hbuild : ∀ l ∈ s.lanes, l.build = (p.stage, p.idCount) := fun l hl => (hs.run hfresh hl).build_eq
  refine ⟨f, a, hsettled, fun l hl => ?_, fun l hl => ?_⟩
  · have hstage := h.stage
    rw [hprogram] at hstage
    exact (congrArg Prod.fst (hbuild l hl)).trans hstage
  · -- the analysis has found the result among the identifiers of the program
    obtain ⟨a', hnext⟩ := h.next l hl
    obtain ⟨-, hi⟩ := Lane.instr_of_nextInstr hsettled.enters
      (hsettled.numbered l hl (h.running l hl)).function hnext
    have hname : r ∈ i.names := by
      simp [Instr.names, Instr.isNop, h.call, h.callee, h.result]
    have hlt := hsettled.enters.describes.named hi hname
    have hsize : l.cells.size = p.idCount := congrArg Prod.snd (hbuild l hl)
    rw [hprogram] at hlt
    simp only [Lane.hasPlace, decide_eq_true_eq]
    omega

/-- The turn of a lane, while the others show what they did. -/
theorem exists_step (h : s.AtDerivative i op x r elem rows columns) (hready : Ready s f a r)
    (host : Host) (hl : s.lanes[k]? = some l) :
    ∃ j j' base neighbour u v w state, op.Subtracts k j j' ∧
      (s.lanes[j]? = some base ∧ base.value? x = some u) ∧
      (s.lanes[j']? = some neighbour ∧ neighbour.value? x = some v) ∧
      (w.elem = elem ∧ w.rows = rows ∧ w.columns = columns) ∧
      (∀ c < w.compCount, (elem.floatOp? .sub (elem.flush (v.get c)) (elem.flush (u.get c))).map
        elem.flush = some (w.get c)) ∧
      ∀ t : Session, t.program = s.program → t.analyses = s.analyses → t.lanes[k]? = some l →
        s.ShownBy x t.lanes →
        l.step (t.setting host k) s.world =
          { lane := l.taking a r w, world := s.world, result := .ok state } := by
  have hmem := List.mem_of_getElem? hl
  have hfin := h.running l hmem
  have hop := h.intrinsic?_eq
  obtain ⟨axis, fine, hd, hsubtracts⟩ := Intrinsic.exists_derivative h.derivative
  obtain ⟨base, neighbour, u, v, w, hbase, hneighbour, ⟨helem, hrows, hcolumns⟩, hget, hderivative⟩ :=
    h.exists_value hready.settled axis fine (hready.stage l hmem) hl
  obtain ⟨state, hstate⟩ := Lane.step_of_value (a := a) (i := i) (v := w) hfin (hready.place l hmem)
  obtain ⟨a', hnext⟩ := h.next l hmem
  obtain ⟨rfl, -⟩ := Lane.instr_of_nextInstr hready.settled.enters
    (hready.settled.numbered l hmem hfin).function hnext
  have hassigned : i.assigned w = w.flushed := by
    have hflush : i.isFlushing := by
      rw [Instr.isFlushing, h.call, hop]
      cases op <;> cases hd <;> rfl
    rw [Instr.assigned, if_pos hflush]
  obtain ⟨helem', hrows', hcolumns'⟩ := w.shape_flushed
  refine ⟨_, _, base, neighbour, u, v, i.assigned w, state,
    hsubtracts k (h.four ▸ (List.getElem?_eq_some_iff.1 hl).1), hbase, hneighbour, ?_, fun c hc => ?_,
    fun t hprogram hanalyses hself hshown => ?_⟩
  · rw [hassigned]
    exact ⟨helem'.trans helem, hrows'.trans hrows, hcolumns'.trans hcolumns⟩
  · have hc : c < w.compCount := by
      rwa [hassigned, Variable.compCount, hrows', hcolumns'] at hc
    rw [hassigned, w.get_flushed hc, hget c hc, helem]
    rfl
  · have hgroup : (t.setting host k).groupWith l.advanced = t.lanes.set k l.advanced := by
      show t.lanes.set l.index l.advanced = _
      rw [hready.settled.index hl]
    have hnext' : l.nextInstr t.program t.analyses = .ok (a', i) := by
      rw [hprogram, hanalyses]
      exact hnext
    refine hstate (t.setting host k) s.world hnext' ?_
    rw [Step.on_instruction_of_intrinsic hop (Step.on_intrinsic hd _), hgroup,
      hderivative _ (hshown.advanced hself)]
    rfl

/-- The turns of the lanes do not depend on each other. -/
theorem independent (h : s.AtDerivative i op x r elem rows columns) (hready : Ready s f a r)
    (host : Host) : s.IndependentTurns host := by
  -- lanes that have had their turns show what they did
  have hshown : ∀ done, s.ShownBy x (s.afterTurns host done).lanes := by
    intro done
    refine ⟨List.length_mapIdx, fun {j l'} hl' => ?_⟩
    rw [getElem?_afterTurns, Option.map_eq_some_iff] at hl'
    obtain ⟨l, hl, rfl⟩ := hl'
    refine ⟨l, hl, ?_⟩
    split
    · obtain ⟨_, _, _, _, _, _, w, state, -, -, -, -, -, hstep⟩ := h.exists_step hready host hl
      rw [hstep s rfl rfl hl (.refl s x), Lane.position_taking,
        Lane.value_taking (hready.place l (List.mem_of_getElem? hl)), Function.update_of_ne h.apart.symm]
      exact ⟨rfl, rfl⟩
    · exact ⟨rfl, rfl⟩
  refine ⟨fun {k l} hl => ?_, fun {k l} hl => ?_, fun {k l done} hl hk => ?_⟩
  · obtain ⟨_, _, _, _, _, _, w, state, -, -, -, -, -, hstep⟩ := h.exists_step hready host hl
    exact ⟨state, by rw [hstep s rfl rfl hl (.refl s x)]⟩
  · obtain ⟨_, _, _, _, _, _, w, state, -, -, -, -, -, hstep⟩ := h.exists_step hready host hl
    rw [hstep s rfl rfl hl (.refl s x)]
  · obtain ⟨_, _, _, _, _, _, w, state, -, -, -, -, -, hstep⟩ := h.exists_step hready host hl
    rw [hstep s rfl rfl hl (.refl s x)]
    refine hstep _ rfl rfl ?_ (hshown done)
    rw [getElem?_afterTurns, hl, Option.map_some, if_neg hk]

theorem mask_eq (h : s.AtDerivative i op x r elem rows columns) (hsettled : s.Settled f a) :
    s.mask = List.replicate quadSize true := by
  rw [mask_of_not_diverged (h.not_diverged hsettled (.refl s x)), List.eq_replicate_iff]
  refine ⟨by rw [List.length_map, h.four], fun runs hruns => ?_⟩
  obtain ⟨l, hl, rfl⟩ := List.mem_map.1 hruns
  simp [h.running l hl]

theorem allowed_eq (h : s.AtDerivative i op x r elem rows columns) (hsettled : s.Settled f a) :
    allowed 0 s.mask = [0, 1, 2, 3] := by
  rw [h.mask_eq hsettled]
  rfl

theorem mem_quad (h : s.AtDerivative i op x r elem rows columns) :
    k ∈ [0, 1, 2, 3] ↔ k < s.lanes.length := by
  rw [h.four]
  simp only [quadSize, List.mem_cons, List.not_mem_nil, or_false]
  omega

/-- The turns of a round in which the lanes take a derivative leave the session in which all of them
    have had their turns, and so does the refresh behind them. -/
theorem exists_round_eq (h : s.AtDerivative i op x r elem rows columns) (hready : Ready s f a r)
    (host : Host) : ∃ states, s.round host =
      { session := (s.afterTurns host [0, 1, 2, 3]).skipNops s.mask, result := .ok states } := by
  have horder := h.allowed_eq hready.settled
  obtain ⟨state, hstate⟩ := (h.independent hready host).exists_stepInOrder_eq
  have hturns := hstate [0, 1, 2, 3] [] (by decide) fun k hk => ⟨h.mem_quad.1 hk, List.not_mem_nil⟩
  rw [afterTurns_nil, List.append_nil, ← horder, ← stepLanes_eq_stepInOrder, horder] at hturns
  -- nothing was written, so no lane reads the global variables again
  have hrefresh : (s.afterTurns host [0, 1, 2, 3]).refresh s.world.memory.writes =
      { session := s.afterTurns host [0, 1, 2, 3], result := .ok () } := by
    unfold refresh
    exact if_pos rfl
  unfold Session.round
  dsimp only
  rw [hturns]
  dsimp only
  rw [hrefresh]
  exact ⟨_, rfl⟩

end AtDerivative

/-- In a round that begins with all lanes of a pixel quad at a derivative of an identifier, of which they
    have values of one float type and shape, every lane takes its derivative. Its components are the
    differences of the components that two lanes of the quad had when the round began, those of
    `Intrinsic.Subtracts`, with subnormals of single precision as zeros before and after. The turns
    leave and report the same in whatever order the lanes have them. -/
theorem derivative_reads_start {b : Bindings} {world : World} {inits : List LaneInit} {active : Nat}
    {config : Config} (hnew : Session.new p b world inits active config = .ok s₀) (hs : s₀.Reached s)
    (h : s.AtDerivative i op x r elem rows columns) (host : Host) :
    (∃ states, (s.round host).result = .ok states) ∧
    (∀ k l, s.lanes[k]? = some l → ∃ j j' base neighbour u v l' w, op.Subtracts k j j' ∧
      (s.lanes[j]? = some base ∧ base.value? x = some u) ∧
      (s.lanes[j']? = some neighbour ∧ neighbour.value? x = some v) ∧
      ((s.round host).session.lanes[k]? = some l' ∧ l'.value? r = some w) ∧
      (w.elem = elem ∧ w.rows = rows ∧ w.columns = columns) ∧
      ∀ c < w.compCount, (elem.floatOp? .sub (elem.flush (v.get c)) (elem.flush (u.get c))).map
        elem.flush = some (w.get c)) ∧
    ∀ order : List Nat, order.Perm [0, 1, 2, 3] →
      s.stepInOrder host order = s.stepLanes host 0 s.mask := by
  obtain ⟨f, a, hready⟩ := h.ready (fresh_of_new hnew) hs
  obtain ⟨states, hround⟩ := h.exists_round_eq hready host
  refine ⟨⟨states, by rw [hround]⟩, fun k l hl => ?_, fun order horder => ?_⟩
  · obtain ⟨j, j', base, neighbour, u, v, w, state, hsubtracts, hbase, hneighbour, hshape, hget, hstep⟩ :=
      h.exists_step hready host hl
    have hlt := (List.getElem?_eq_some_iff.1 hl).1
    have hk := h.mem_quad.2 hlt
    have hstepped := hstep s rfl rfl hl (.refl s x)
    have hlane : (s.round host).session.lanes[k]? = some ((l.taking a r w).skipNops s.program) := by
      rw [hround]
      show ((s.afterTurns host [0, 1, 2, 3]).skipNops s.mask).lanes[k]? = _
      have hruns : s.mask[k]?.getD false = true := by
        rw [h.mask_eq hready.settled, List.getElem?_replicate, if_pos (h.four ▸ hlt)]
        rfl
      simp only [skipNops, List.getElem?_mapIdx, getElem?_afterTurns, hl, Option.map_some, if_pos hk,
        hruns, if_true, hstepped]
      rfl
    refine ⟨j, j', base, neighbour, u, v, _, w, hsubtracts, hbase, hneighbour, ⟨hlane, ?_⟩, hshape, hget⟩
    rw [Lane.value_skipNops, Lane.value_taking (hready.place l (List.mem_of_getElem? hl)),
      Function.update_self]
  · rw [stepLanes_eq_stepInOrder, h.allowed_eq hready.settled]
    exact (h.independent hready host).stepInOrder_of_perm horder (by decide) fun k => h.mem_quad.1

/-- A derivative of `%2`. -/
def squareSlope (op : Intrinsic) : Instr :=
  { op := .call, ty := .float 32, args := [.ref ⟨2⟩], result := some ⟨3⟩, callee := some (.intrinsic op) }

/-- A pixel program that takes it of the square of the number of the lane. -/
def squareSlopeProgram (op : Intrinsic) : Program :=
  { stage := .pixel
    functions := #[{
      name := "squares"
      blocks := #[{}]
      instrs := #[
        { op := .call, ty := .int 32, result := some ⟨0⟩,
          callee := some (.intrinsic .flattenedThreadIdInGroup) },
        { op := .mul, ty := .int 32, args := [.ref ⟨0⟩, .ref ⟨0⟩], result := some ⟨1⟩ },
        { op := .uToF, ty := .float 32, args := [.ref ⟨1⟩], result := some ⟨2⟩ },
        squareSlope op,
        { op := .ret }] }]
    idCount := 4 }

/-- The squares of the numbers of the lanes, in single precision. -/
def squareBits (k : Nat) : UInt64 := [0, 0x3f800000, 0x40800000, 0x41100000].getD k 0

/-- The last lane of a quad gets a component from a derivative of the squares, and the turns of the round
    leave the same in the reverse order. -/
def LastSlopeIs (op : Intrinsic) (bits : UInt64) : Prop :=
  ∃ s₀ s, Session.new (squareSlopeProgram op) {} {} [.numbered 0, .numbered 1, .numbered 2, .numbered 3] 0 {} =
      .ok s₀ ∧
    s₀.Reached s ∧ s.AtDerivative (squareSlope op) op ⟨2⟩ ⟨3⟩ .float 1 1 ∧
    (∃ states, (s.round .unbound).result = .ok states) ∧
    (∃ l w, (s.round .unbound).session.lanes[3]? = some l ∧ l.value? ⟨3⟩ = some w ∧ w.get 0 = bits) ∧
    s.stepInOrder .unbound [3, 2, 1, 0] = s.stepLanes .unbound 0 s.mask

/-- The lane with the square 9 gets 1 - 0 and 4 - 0 from the coarse derivatives, 9 - 4 from the fine one
    of its row and 9 - 1 from that of its column. -/
theorem squares_have_slopes :
    LastSlopeIs .derivCoarseX 0x3f800000 ∧ LastSlopeIs .derivCoarseY 0x40800000 ∧
      LastSlopeIs .derivFineX 0x40a00000 ∧ LastSlopeIs .derivFineY 0x41000000 := by
  have h : ∀ op ∈ [Intrinsic.derivCoarseX, .derivCoarseY, .derivFineX, .derivFineY],
      ∃ s₀, Session.new (squareSlopeProgram op) {} {} [.numbered 0, .numbered 1, .numbered 2, .numbered 3] 0 {} =
        .ok s₀ ∧
      ∃ states, s₀.start.result = .ok states ∧ ∃ s, s₀.start.session.advance .unbound 3 = .ok s ∧
        s.lanes.length = quadSize ∧ (s.analyses.of? 0).isSome ∧
        (∀ l ∈ s.lanes, ¬ l.isFinished ∧ l.instr = 3 ∧ l.function = 0 ∧
          ∃ v, l.value? ⟨2⟩ = some v ∧ v.elem = .float ∧ v.rows = 1 ∧ v.columns = 1) ∧
        ∀ k < 4, ∃ l, s.lanes[k]? = some l ∧ ∃ v, l.value? ⟨2⟩ = some v ∧ v.get 0 = squareBits k := by
    intro op hop
    simp only [List.mem_cons, List.not_mem_nil, or_false] at hop
    rcases hop with rfl | rfl | rfl | rfl <;> decide +kernel
  have hslope : ∀ op bits, op ∈ [Intrinsic.derivCoarseX, .derivCoarseY, .derivFineX, .derivFineY] →
      (∀ {j j' : Nat}, op.Subtracts 3 j j' → j < 4 ∧ j' < 4 ∧
        (ElemType.float.floatOp? .sub (ElemType.float.flush (squareBits j')) (ElemType.float.flush (squareBits j))).map
          ElemType.float.flush = some bits) → LastSlopeIs op bits := by
    intro op bits hop hbits
    obtain ⟨s₀, hnew, states, hstart, s, hs, hfour, hanalysis, hlanes, hsquares⟩ := h op hop
    have hreached : s₀.Reached s := (Reached.started hstart).advance hs
    have hprogram : s.program = squareSlopeProgram op :=
      hreached.program_eq.trans (fresh_of_new hnew).program
    have hat : s.AtDerivative (squareSlope op) op ⟨2⟩ ⟨3⟩ .float 1 1 := by
      refine ⟨by rw [hprogram]; rfl, hfour, fun l hl => (hlanes l hl).1, ⟨3, fun l hl => (hlanes l hl).2.1⟩,
        fun l hl => ?_, rfl, rfl, hop, rfl, rfl, by decide, rfl, fun l hl => (hlanes l hl).2.2.2⟩
      obtain ⟨-, hinstr, hfunction, -⟩ := hlanes l hl
      obtain ⟨a, ha⟩ := Option.isSome_iff_exists.1 hanalysis
      refine ⟨a, ?_⟩
      rw [Lane.nextInstr, hfunction, hprogram, ha, hinstr]
      rfl
    obtain ⟨hround, hvalue, horder⟩ := derivative_reads_start hnew hreached hat .unbound
    obtain ⟨l₃, hl₃, -⟩ := hsquares 3 (by decide)
    obtain ⟨j, j', base, neighbour, u, v, l, w, hsubtracts, ⟨hbase, hu⟩, ⟨hneighbour, hv⟩, ⟨hl, hw⟩, hshape, hget⟩ :=
      hvalue 3 l₃ hl₃
    obtain ⟨hj, hj', hdifference⟩ := hbits hsubtracts
    have hsquare : ∀ {k l v}, k < 4 → s.lanes[k]? = some l → l.value? ⟨2⟩ = some v → v.get 0 = squareBits k := by
      intro k l v hk hl hv
      obtain ⟨l', hl', v', hv', heq⟩ := hsquares k hk
      obtain rfl : l' = l := Option.some.inj (hl'.symm.trans hl)
      obtain rfl : v' = v := Option.some.inj (hv'.symm.trans hv)
      exact heq
    have hcomponent := hget 0 (by rw [Variable.compCount, hshape.2.1, hshape.2.2]; decide)
    rw [hsquare hj hbase hu, hsquare hj' hneighbour hv, hdifference] at hcomponent
    exact ⟨s₀, s, hnew, hreached, hat, hround, ⟨l, w, hl, hw, (Option.some.inj hcomponent).symm⟩,
      horder _ (by decide)⟩
  refine ⟨hslope _ _ (by decide) ?_, hslope _ _ (by decide) ?_, hslope _ _ (by decide) ?_,
    hslope _ _ (by decide) ?_⟩
  · rintro j j' ⟨⟩
    decide +kernel
  · rintro j j' ⟨⟩
    decide +kernel
  · rintro j j' (_ | _ | h | _)
    · exact absurd h (by decide)
    · decide +kernel
  · rintro j j' (_ | _ | _ | _ | h | _)
    · exact absurd h (by decide)
    · decide +kernel

end Session

end Lockstep
