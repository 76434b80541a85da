import Lockstep.Proofs.Flow.Uniform
import Lockstep.Proofs.Lane.Run

set_option autoImplicit false

/-! # Turns of a lane

In a round a lane steps once and comes to rest at an instruction that does something. Within a block
it comes to rest at the next one (`Lane.Turn.within`); when it jumps, at the first one of the block
that it enters (`Lane.Turn.jump`). -/

namespace Lockstep

namespace Lane

/-- A lane is past the markers at its place, and says so. -/
structure AtRest (f : Function) (l : Lane) : Prop where
  active : l.activeInstr = l.globalInstr
  instr : ¬ atNop f l.instr

/-- A lane has only markers before it in its block. -/
def AtStart (f : Function) (l : Lane) : Prop :=
  ∀ j < l.instr, f.blockOf j = l.block → atNop f j

variable {p : Program} {b : Bindings} {as : Analyses} {liveGlobals : Array Bool} {f : Function}
  {a : FunctionAnalysis} {l l' : Lane}

theorem AtRest.of_place (h : l.AtRest f) (hplace : l'.place = l.place) : l'.AtRest f := by
  have hactive : l'.activeInstr = l.activeInstr := congrArg Place.activeInstr hplace
  have hglobal : l'.globalInstr = l.globalInstr := congrArg Place.globalInstr hplace
  have hinstr : l'.instr = l.instr := congrArg Place.instr hplace
  exact ⟨by rw [hactive, hglobal, h.active], hinstr ▸ h.instr⟩

theorem AtStart.of_place (h : l.AtStart f) (hplace : l'.place = l.place) : l'.AtStart f := by
  have hblock : l'.block = l.block := congrArg Place.block hplace
  have hinstr : l'.instr = l.instr := congrArg Place.instr hplace
  intro j hj hjblock
  exact h j (hinstr ▸ hj) (hblock ▸ hjblock)

/-- Lanes at rest are at one place exactly when they are at one instruction. -/
theorem position_eq_iff {n : Nat} (hl : l.place.Numbered f a n) (hl' : l'.place.Numbered f a n)
    (hrest : l.AtRest f) (hrest' : l'.AtRest f) : l.position = l'.position ↔ l.instr = l'.instr := by
  have hglobal : l.globalInstr = a.offset + l.instr := hl.globalInstr
  have hglobal' : l'.globalInstr = a.offset + l'.instr := hl'.globalInstr
  have hblock : l.block = f.blockOf l.instr := hl.block
  have hblock' : l'.block = f.blockOf l'.instr := hl'.block
  unfold position
  rw [hrest.active, hrest'.active, hglobal, hglobal', Prod.mk.injEq]
  constructor
  · rintro ⟨-, h⟩
    omega
  · intro h
    exact ⟨by rw [hblock, hblock', h], by omega⟩

/-- Lanes that rest at the start of one block are at one instruction. -/
theorem instr_eq_of_atStart (hl : l.place.Sound f a p.entry) (hl' : l'.place.Sound f a p.entry)
    (hrest : l.AtRest f) (hrest' : l'.AtRest f) (hstart : l.AtStart f) (hstart' : l'.AtStart f)
    (hblock : l.block = l'.block) : l.instr = l'.instr := by
  rcases Nat.lt_trichotomy l.instr l'.instr with h | h | h
  · exact absurd (hstart' l.instr h (hl.block.symm.trans hblock)) hrest.instr
  · exact h
  · exact absurd (hstart l'.instr h (hl'.block.symm.trans hblock.symm)) hrest'.instr

/-- The test for uniform blocks is exact for lanes of the entry function. -/
theorem inUniformBlock_iff (he : p.Entry as f a) (hl : l.function = p.entry) :
    l.inUniformBlock as ↔
      0 < (FlowGraph.ofLinks f.blocks.size f.links).size ∧ Uniform f.Linked l.block := by
  unfold inUniformBlock
  rw [hl, he.analysis, Option.any_some, he.describes.flow]
  exact ControlFlow.isUniform_ofLinks f.blocks.size f.links l.block

theorem inUniformBlock_congr (hfunction : l'.function = l.function) (hblock : l'.block = l.block) :
    l'.inUniformBlock as = l.inUniformBlock as := by
  unfold inUniformBlock
  rw [hfunction, hblock]

/-- A block that a link leaves is uniform only if the test says so. -/
theorem not_uniform_of_link (he : p.Entry as f a) (hl : l.function = p.entry)
    (hu : ¬ l.inUniformBlock as) {c : Nat} (hlink : f.Linked l.block c) :
    ¬ Uniform f.Linked l.block := by
  intro h
  refine hu ((inUniformBlock_iff he hl).2 ⟨?_, h⟩)
  have := FlowGraph.lt_size_of_link ((FlowGraph.link_ofLinks f.blocks.size f.links _ _).2 hlink)
  omega

/-- What a turn makes of a lane that is still not finished. -/
inductive Turn (f : Function) (l l' : Lane) : Prop
  /-- It rests at the next instruction of the block that does something. -/
  | within (i : Instr) (hi : f.instrs[l.instr]? = some i) (ht : ¬ i.isTerminator)
      (hblock : l'.block = l.block)
      (hinstr : l'.instr = l.instr + 1 + nopsFrom f (l.instr + 1) f.instrs.size)
  /-- It rests at the first such instruction of the block that it jumps to. -/
  | jump (i : Instr) (hi : f.instrs[l.instr]? = some i) (ht : i.isTerminator)
      (hlink : f.Linked l.block l'.block) (hstart : l'.AtStart f)

/-- Two lanes that turn at one place stay together within the block, or both leave it. -/
theorem Turn.together {m m' : Lane} (h : Turn f l l') (hm : Turn f m m')
    (hinstr : l.instr = m.instr) (hblock : l.block = m.block) :
    (l'.block = l.block ∧ m'.block = l.block ∧ l'.instr = m'.instr) ∨
      ((f.Linked l.block l'.block ∧ l'.AtStart f) ∧ (f.Linked l.block m'.block ∧ m'.AtStart f)) := by
  rw [hblock]
  cases h with
  | within i hi ht hlblock hlinstr =>
      cases hm with
      | within i' hi' _ hmblock hminstr =>
          exact .inl ⟨hlblock.trans hblock, hmblock, by rw [hlinstr, hminstr, hinstr]⟩
      | jump i' hi' ht' _ _ =>
          rw [hinstr, hi'] at hi
          exact absurd (Option.some.inj hi ▸ ht') ht
  | jump i hi ht hlink hstart =>
      cases hm with
      | within i' hi' ht' _ _ =>
          rw [hinstr, hi'] at hi
          exact absurd ht (Option.some.inj hi ▸ ht')
      | jump i' hi' _ hmlink hmstart => exact .inr ⟨⟨hblock ▸ hlink, hstart⟩, hmlink, hmstart⟩

/-- Moving past markers changes the instruction and not the block, and the lane comes to rest. -/
theorem skipNops_spec (he : p.Enters as f a) (hl : l.function = p.entry)
    (hfin : ¬ l.isFinished) :
    (l.skipNops p).block = l.block ∧
      (l.skipNops p).instr = l.instr + nopsFrom f l.instr f.instrs.size ∧
      (l.skipNops p).AtRest f := by
  have hfun : p.functions[l.function]? = some f := by
    rw [hl, he.function]
  have hplace := place_skipNops hfin hfun
  have hinstr : (l.skipNops p).instr = l.instr + nopsFrom f l.instr f.instrs.size :=
    congrArg Place.instr hplace
  have hglobal : (l.skipNops p).globalInstr = l.globalInstr + nopsFrom f l.instr f.instrs.size :=
    congrArg Place.globalInstr hplace
  have hactive : (l.skipNops p).activeInstr = l.globalInstr + nopsFrom f l.instr f.instrs.size :=
    congrArg Place.activeInstr hplace
  refine ⟨congrArg Place.block hplace, hinstr, hactive.trans hglobal.symm, ?_⟩
  rw [hinstr]
  exact not_atNop_after_nopsFrom (by omega)

/-- A lane that enters a block and moves past markers is at its start. -/
theorem atStart_of_skip {starts : List Nat} (hstarts : f.blockStarts = .ok starts) {c start : Nat}
    (hstart : starts[c]? = some start) (hblock : l.block = c)
    (hinstr : l.instr = start + nopsFrom f start f.instrs.size) : l.AtStart f := by
  obtain ⟨-, hbefore⟩ := Function.blockOf_start hstarts hstart
  intro j hj hjblock
  -- before the start are other blocks, and behind it only markers
  rcases Nat.lt_or_ge j start with hlt | hge
  · have := hbefore j hlt
    omega
  · obtain ⟨k, rfl⟩ := Nat.exists_eq_add_of_le hge
    exact atNop_of_lt_nopsFrom (n := f.instrs.size) (by omega)

/-- A lane that steps and moves past markers makes a turn. -/
theorem turn_of_stepping (he : p.Entry as f a) (hl : l.place.Sound f a p.entry)
    (hfin : ¬ l.isFinished) {l₁ l₂ : Lane} (hstep : Stepping p as l l₁)
    (hrefresh : Refreshing b.globals l₁ l₂) (hfin' : ¬ (l₂.skipNops p).isFinished) :
    (l₂.skipNops p).AtRest f ∧ Turn f l (l₂.skipNops p) := by
  obtain ⟨s, w, state, hp, has, hok, rfl⟩ := hstep
  obtain ⟨i, -, hi, hnext⟩ := next_of_step he.enters hl.function hfin hp has hok
  rw [isFinished_skipNops] at hfin'
  have hrun : ¬ (l₂.place.isKilled ∨ l₂.place.isEnded) := fun h => hfin' (isFinished_of_stop h)
  rw [← place_of_frame hrefresh.frame_eq] at hnext
  have hsound : l₂.place.Sound f a p.entry := hl.next he.targets he.describes.starts hi hnext hrun
  obtain ⟨hblock, hinstr, hrest⟩ := skipNops_spec he.enters hsound.function hfin'
  refine ⟨hrest, ?_⟩
  generalize hq : l₂.place = q at hnext hrun
  cases hnext with
  | within ht =>
      have hblock₂ : l₂.block = l.block := congrArg Place.block hq
      have hinstr₂ : l₂.instr = l.instr + 1 := congrArg Place.instr hq
      refine .within i hi ht (hblock.trans hblock₂) ?_
      rw [hinstr, hinstr₂]
  | jump c start ht hc hstart =>
      have hblock₂ : l₂.block = c := congrArg Place.block hq
      have hinstr₂ : l₂.instr = start := congrArg Place.instr hq
      refine .jump i hi ht ?_ (atStart_of_skip he.describes.starts hstart (hblock.trans hblock₂) ?_)
      · rw [hblock, hblock₂]
        exact hl.link he.targets hi ht hc
      · rw [hinstr, hinstr₂]
  | stop _ hstop => exact absurd hstop hrun

end Lane

end Lockstep
