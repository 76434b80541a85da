import Lockstep.Proofs.Lane.Assigns
import Lockstep.Proofs.Lane.Scope

set_option autoImplicit false

/-! # Trails

The trail of a run is the list of the steps that it has taken. Control comes from every instruction on the
trail to those that the lane executes later (`Lane.Trail.pairwise`), and in a function without loops it
comes to no instruction again. So such a lane executes an instruction at most once, it stops after as many
steps as the function has instructions, and it assigns an identifier once unless that is written through
(`Lane.Trail.executes_once`). -/

namespace Lockstep

/-! ## Control goes on -/

variable {p : Program} {b : Bindings} {as : Analyses} {liveGlobals : Array Bool} {f : Function}
  {a : FunctionAnalysis}

namespace Place

/-- Where a place is in its function. -/
def point (q : Place) : Point := ⟨q.block, q.instr⟩

variable {q q' : Place} {i : Instr}

/-- Control can come to where an instruction moves a lane. -/
theorem Next.before (htargets : f.TargetsAgree) {n : Nat} (h : q.Sound f a n)
    (hi : f.instrs[q.instr]? = some i) (hnext : q.Next a i q') (hrun : ¬ (q'.isKilled ∨ q'.isEnded)) :
    f.Before q.point q'.point := by
  cases hnext with
  | within _ => exact .inl ⟨rfl, Nat.lt_succ_self _⟩
  | jump b start ht hb _ => exact .inr (.single (h.link htargets hi ht hb))
  | stop _ hstop => exact absurd hstop hrun

/-- What control comes from before it comes to a place, it comes from before it comes further. -/
theorem before_skip {r : Point} (h : f.Before r q.point) (n : Nat) : f.Before r (q.skip n).point := by
  rcases h with ⟨hblock, hlt⟩ | hreach
  · exact .inl ⟨hblock, Nat.lt_of_lt_of_le hlt (Nat.le_add_right _ _)⟩
  · exact .inr hreach

end Place

/-- Without loops control does not come back. -/
theorem Program.Entry.not_before_self (he : p.Entry as f a) (hloops : a.flow.loops = []) (q : Point) :
    ¬ f.Before q q := by
  rintro (⟨-, hlt⟩ | hcycle)
  · exact Nat.lt_irrefl _ hlt
  · have hloop : a.flow.isLoop q.block := he.describes.flow ▸ (ControlFlow.isLoop_ofLinks ..).2 hcycle
    unfold ControlFlow.isLoop at hloop
    rw [hloops] at hloop
    cases hloop

/-! ## Functions that end with a terminator -/

/-- The last instruction of a function is a terminator. -/
def Function.EndsInTerminator (f : Function) : Prop := f.instrs.back?.any Instr.isTerminator

namespace Function.EndsInTerminator

variable {n : Nat} {i : Instr}

theorem size_pos (h : f.EndsInTerminator) : 0 < f.instrs.size := by
  by_contra hzero
  unfold EndsInTerminator at h
  rw [Array.back?_eq_getElem?, Array.getElem?_eq_none (by omega)] at h
  cases h

/-- There is an instruction behind one that is no terminator. -/
theorem succ_lt (h : f.EndsInTerminator) (hi : f.instrs[n]? = some i) (ht : ¬ i.isTerminator) :
    n + 1 < f.instrs.size := by
  obtain ⟨hn, -⟩ := Array.getElem?_eq_some_iff.1 hi
  by_contra hlast
  obtain rfl : n = f.instrs.size - 1 := by omega
  unfold EndsInTerminator at h
  rw [Array.back?_eq_getElem?, hi] at h
  exact ht h

/-- Markers are not the last instructions. -/
theorem skip_lt (h : f.EndsInTerminator) (hn : n < f.instrs.size) {k : Nat}
    (hk : ∀ j < k, Lane.atNop f (n + j)) : n + k < f.instrs.size := by
  cases k with
  | zero => exact hn
  | succ k =>
      obtain ⟨i, hi, hnop⟩ := (Option.any_eq_true _ _).1 (hk k (Nat.lt_succ_self k))
      exact h.succ_lt hi (Instr.not_isTerminator_of_isNop hnop)

end Function.EndsInTerminator

/-- The step of a lane of a session. -/
def Session.move (s : Session) (host : Host) (index : Nat) (l : Lane) : Move :=
  ⟨l, s.setting host index, s.world⟩

/-- The step that a lane takes next if it steps alone. -/
def Move.next (t : Move) : Move := { t with lane := t.stepped.lane, world := t.left }

namespace Lane

variable {l : Lane} {past : List Move} {x : Id}

/-- Moving past markers leaves a lane among the instructions. -/
theorem instr_skipNops_lt (he : p.Enters as f a) (hends : f.EndsInTerminator)
    (hfunction : l.function = p.entry) (hl : l.instr < f.instrs.size) :
    (l.skipNops p).instr < f.instrs.size := by
  rcases skipNops_cases he hfunction with hplace | ⟨n, hn, hplace⟩
  · rwa [show (l.skipNops p).instr = l.instr from congrArg Place.instr hplace]
  · rw [show (l.skipNops p).instr = l.instr + n from congrArg Place.instr hplace]
    exact hends.skip_lt hl hn

/-- In a function that ends with a terminator a lane does not run off the end. -/
theorem Run.instr_lt (he : p.Entry as f a) (hends : f.EndsInTerminator) (h : l.Run p b as liveGlobals)
    (hl : ¬ l.isFinished) : l.instr < f.instrs.size := by
  induction h with
  | entered h =>
      obtain ⟨a', l₁, -, rfl, hplace⟩ := place_of_enter h
      have hinstr : l₁.instr = 0 := congrArg Place.instr hplace
      exact instr_skipNops_lt he.enters hends (congrArg Place.function hplace) (hinstr ▸ hends.size_pos)
  | @stepped l s w state hrun hp has h ih =>
      by_cases hfin : l.isFinished
      · rw [step_of_isFinished hfin] at hl ⊢
        exact ih hl
      · obtain ⟨i, -, hi, hnext⟩ := next_of_step he.enters (hrun.sound he hfin).function hfin hp has h
        generalize hl' : (l.step s w).lane = l' at hl hnext ⊢
        rw [show l'.instr = l'.place.instr from rfl]
        have hstop : ¬ (l'.place.isKilled ∨ l'.place.isEnded) := fun hstop => hl (isFinished_of_stop hstop)
        generalize l'.place = q at hnext hstop ⊢
        cases hnext with
        | within ht => exact hends.succ_lt hi ht
        | jump b start _ _ hstart => exact Function.start_lt he.describes.starts hstart
        | stop _ h => exact absurd h hstop
  | @refreshed l l' memory _ h ih =>
      have hframe := frame_refreshGlobals l memory b.globals
      rw [h] at hframe
      have hplace := place_of_frame hframe
      rw [isFinished_of_place hplace] at hl
      rw [show l'.instr = l.instr from congrArg Place.instr hplace]
      exact ih hl
  | skipped hrun ih =>
      rw [isFinished_skipNops] at hl
      exact instr_skipNops_lt he.enters hends (hrun.sound he hl).function (ih hl)

theorem Run.outputId_eq (h : l.Run p b as liveGlobals) : l.outputId = ⟨p.idCount + 1⟩ :=
  congrArg (fun build : Stage × Nat => (⟨build.2 + 1⟩ : Id)) h.build_eq

/-! ## Trails -/

/-- The steps that a run of a lane has taken, the first one first. -/
inductive Trail (p : Program) (b : Bindings) (as : Analyses) (liveGlobals : Array Bool) :
    Lane → List Move → Prop
  | entered {index : Nat} {init : LaneInit} {l : Lane}
      (h : (Lane.new index p init).enter p b as liveGlobals = (.ok (), l)) : Trail p b as liveGlobals l []
  | stepped {l : Lane} {past : List Move} {s : Setting} {w : World} {state : StepState}
      (hl : Trail p b as liveGlobals l past) (hrun : ¬ l.isFinished) (hp : s.program = p)
      (has : s.analyses = as) (h : (l.step s w).result = .ok state) :
      Trail p b as liveGlobals (l.step s w).lane (past ++ [⟨l, s, w⟩])
  | refreshed {l l' : Lane} {past : List Move} {memory : Memory} (hl : Trail p b as liveGlobals l past)
      (h : l.refreshGlobals memory b.globals = (.ok (), l')) : Trail p b as liveGlobals l' past
  | skipped {l : Lane} {past : List Move} (hl : Trail p b as liveGlobals l past) :
      Trail p b as liveGlobals (l.skipNops p) past

/-- Every run has a trail: a lane that is finished takes no steps. -/
theorem Run.exists_trail (h : l.Run p b as liveGlobals) : ∃ past, l.Trail p b as liveGlobals past := by
  induction h with
  | entered h => exact ⟨[], .entered h⟩
  | @stepped l s w state _ hp has h ih =>
      obtain ⟨past, ih⟩ := ih
      by_cases hfin : l.isFinished
      · rw [step_of_isFinished hfin]
        exact ⟨past, ih⟩
      · exact ⟨_, ih.stepped hfin hp has h⟩
  | refreshed _ h ih =>
      obtain ⟨past, ih⟩ := ih
      exact ⟨past, ih.refreshed h⟩
  | skipped _ ih =>
      obtain ⟨past, ih⟩ := ih
      exact ⟨past, ih.skipped⟩

namespace Trail

theorem run (h : l.Trail p b as liveGlobals past) : l.Run p b as liveGlobals := by
  induction h with
  | entered h => exact .entered h
  | stepped _ _ hp has h ih => exact .stepped ih hp has h
  | refreshed _ h ih => exact .refreshed ih h
  | skipped _ ih => exact .skipped ih

/-- A step that a run takes: it is one of a lane that has not finished, and it succeeds. -/
structure Taken (p : Program) (b : Bindings) (as : Analyses) (liveGlobals : Array Bool) (t : Move) :
    Prop where
  run : t.lane.Run p b as liveGlobals
  running : ¬ t.lane.isFinished
  program : t.setting.program = p
  analyses : t.setting.analyses = as
  succeeds : t.Succeeds

theorem taken (h : l.Trail p b as liveGlobals past) : ∀ t ∈ past, Taken p b as liveGlobals t := by
  induction h with
  | entered _ => exact fun t ht => absurd ht List.not_mem_nil
  | stepped hl hrun hp has h ih =>
      intro t ht
      rcases List.mem_append.1 ht with ht | ht
      · exact ih t ht
      · cases List.mem_singleton.1 ht
        exact ⟨hl.run, hrun, hp, has, _, h⟩
  | refreshed _ _ ih => exact ih
  | skipped _ ih => exact ih

/-- A step that is taken executes the instruction at its place in the entry function. -/
theorem Taken.executes (he : p.Entry as f a) {t : Move} (h : Taken p b as liveGlobals t) :
    ∃ i, t.Executes i ∧ f.instrs[t.lane.instr]? = some i := by
  obtain ⟨state, hok⟩ := h.succeeds
  obtain ⟨i, hnext, hi, -⟩ := next_of_step he.enters (h.run.sound he h.running).function h.running
    h.program h.analyses hok
  exact ⟨i, ⟨a, by rw [h.program, h.analyses, hnext]⟩, hi⟩

/-- A step that changes the output assigns it. -/
theorem Taken.assigns_output {t : Move} (h : Taken p b as liveGlobals t)
    (houtput : t.stepped.lane.output ≠ t.lane.output) : t.Assigns ⟨p.idCount + 1⟩ := by
  obtain ⟨state, hok⟩ := h.succeeds
  have hbefore := t.lane.value_outputId
  have hafter := t.stepped.lane.value_outputId
  rw [h.run.outputId_eq] at hbefore
  rw [show t.stepped.lane.outputId = _ from (h.run.stepped h.program h.analyses hok).outputId_eq] at hafter
  exact .inr fun hsame => houtput (Option.some.inj (hafter.symm.trans (hsame.trans hbefore)))

/-- Where control comes to from the instruction of a step that is taken, if the lane still runs. -/
theorem Taken.before (he : p.Entry as f a) {t : Move} (h : Taken p b as liveGlobals t)
    (hl : ¬ t.stepped.lane.isFinished) : f.Before t.lane.point t.stepped.lane.point := by
  obtain ⟨state, hok⟩ := h.succeeds
  have hsound := h.run.sound he h.running
  obtain ⟨i, -, hi, hnext⟩ := next_of_step he.enters hsound.function h.running h.program h.analyses hok
  exact hnext.before he.targets hsound hi fun hstop => hl (isFinished_of_stop hstop)

/-- What control comes from before a step on the trail of a lane is through, it comes from to where the
    lane is. -/
theorem before_of_stepped (he : p.Entry as f a) (h : l.Trail p b as liveGlobals past)
    (hl : ¬ l.isFinished) {q : Point} {t : Move} (ht : t ∈ past)
    (hq : f.Before q t.stepped.lane.point) : f.Before q l.point := by
  induction h with
  | entered _ => exact absurd ht List.not_mem_nil
  | @stepped l past s w state hl₀ hrun hp has h ih =>
      rcases List.mem_append.1 ht with ht | ht
      · exact (ih hrun ht).trans (Taken.before (t := ⟨l, s, w⟩) he ⟨hl₀.run, hrun, hp, has, _, h⟩ hl)
      · cases List.mem_singleton.1 ht
        exact hq
  | @refreshed l l' past memory _ h ih =>
      have hframe := frame_refreshGlobals l memory b.globals
      rw [h] at hframe
      have hplace := place_of_frame hframe
      rw [isFinished_of_place hplace] at hl
      rw [show l'.point = l.point from congrArg Place.point hplace]
      exact ih hl ht
  | @skipped l past hl₀ ih =>
      rw [isFinished_skipNops] at hl
      show f.Before q (l.skipNops p).place.point
      rcases skipNops_cases he.enters (hl₀.run.sound he hl).function with hplace | ⟨n, -, hplace⟩
      · exact hplace ▸ ih hl ht
      · exact hplace ▸ Place.before_skip (ih hl ht) n

/-- A lane that runs has run after each step on its trail. -/
theorem running_stepped (h : l.Trail p b as liveGlobals past) (hl : ¬ l.isFinished) {t : Move}
    (ht : t ∈ past) : ¬ t.stepped.lane.isFinished := by
  induction h with
  | entered _ => exact absurd ht List.not_mem_nil
  | stepped _ hrun _ _ _ ih =>
      rcases List.mem_append.1 ht with ht | ht
      · exact ih hrun ht
      · cases List.mem_singleton.1 ht
        exact hl
  | @refreshed l l' past memory _ h ih =>
      have hframe := frame_refreshGlobals l memory b.globals
      rw [h] at hframe
      rw [isFinished_of_place (place_of_frame hframe)] at hl
      exact ih hl ht
  | skipped _ ih =>
      rw [isFinished_skipNops] at hl
      exact ih hl ht

/-- Control comes from the instructions on the trail of a lane to where the lane is. -/
theorem before (he : p.Entry as f a) (h : l.Trail p b as liveGlobals past) (hl : ¬ l.isFinished) :
    ∀ t ∈ past, f.Before t.lane.point l.point := fun t ht =>
  h.before_of_stepped he hl ht ((h.taken t ht).before he (h.running_stepped hl ht))

/-- Control comes from every instruction on a trail to those after it. -/
theorem pairwise (he : p.Entry as f a) (h : l.Trail p b as liveGlobals past) :
    past.Pairwise fun t u => f.Before t.lane.point u.lane.point := by
  induction h with
  | entered _ => exact .nil
  | @stepped l past s w state hl hrun hp has h ih =>
      refine List.pairwise_append.2 ⟨ih, List.pairwise_singleton .., fun t ht u hu => ?_⟩
      cases List.mem_singleton.1 hu
      exact hl.before he hrun t ht
  | refreshed _ _ ih => exact ih
  | skipped _ ih => exact ih

/-- A lane that steps alone leaves its steps on its trail. -/
theorem alone {t : Move} {n : Nat} (h : t.lane.Trail p b as liveGlobals past) (hp : t.setting.program = p)
    (has : t.setting.analyses = as)
    (hok : ∀ u ∈ List.iterate Move.next t n, ¬ u.lane.isFinished ∧ u.Succeeds) :
    (Move.next^[n] t).lane.Trail p b as liveGlobals (past ++ List.iterate Move.next t n) := by
  induction n generalizing t past with
  | zero => rwa [List.iterate, List.append_nil]
  | succ n ih =>
      rw [List.iterate] at hok ⊢
      obtain ⟨hrun, state, hstep⟩ := hok t List.mem_cons_self
      rw [List.append_cons]
      exact ih (h.stepped hrun hp has hstep) hp has fun u hu => hok u (List.mem_cons_of_mem _ hu)

/-! ## Functions without loops -/

/-- In a function without loops control does not come from an instruction to itself. -/
theorem instr_ne (he : p.Entry as f a) (hloops : a.flow.loops = []) {l l' : Lane}
    (hl : l.place.Sound f a p.entry) (hl' : l'.place.Sound f a p.entry) (h : f.Before l.point l'.point) :
    l.instr ≠ l'.instr := by
  intro hinstr
  have hblock : l.block = l'.block :=
    hl.block.trans ((congrArg f.blockOf hinstr).trans hl'.block.symm)
  have hpoint : l.point = l'.point := by rw [point, point, hblock, hinstr]
  exact he.not_before_self hloops l'.point (hpoint ▸ h)

/-- So it executes no instruction twice. -/
theorem nodup (he : p.Entry as f a) (hloops : a.flow.loops = []) (h : l.Trail p b as liveGlobals past) :
    (past.map (·.lane.instr)).Nodup := by
  have hsound : ∀ t ∈ past, t.lane.place.Sound f a p.entry := fun t ht =>
    (h.taken t ht).run.sound he (h.taken t ht).running
  refine List.pairwise_map.2 ((h.pairwise he).imp_of_mem fun ht hu hbefore => ?_)
  exact instr_ne he hloops (hsound _ ht) (hsound _ hu) hbefore

/-- Nor does the lane come to an instruction again that it has executed. -/
theorem instr_not_mem (he : p.Entry as f a) (hloops : a.flow.loops = [])
    (h : l.Trail p b as liveGlobals past) (hl : ¬ l.isFinished) : l.instr ∉ past.map (·.lane.instr) := by
  intro hmem
  obtain ⟨t, ht, hinstr⟩ := List.mem_map.1 hmem
  have htaken := h.taken t ht
  exact instr_ne he hloops (htaken.run.sound he htaken.running) (h.run.sound he hl)
    (h.before he hl t ht) hinstr

theorem subset_range (he : p.Entry as f a) (h : l.Trail p b as liveGlobals past) :
    past.map (·.lane.instr) ⊆ List.range f.instrs.size := by
  intro j hj
  obtain ⟨t, ht, rfl⟩ := List.mem_map.1 hj
  obtain ⟨i, -, hi⟩ := (h.taken t ht).executes he
  exact List.mem_range.2 (Array.getElem?_eq_some_iff.1 hi).1

/-- A lane takes no more steps than the function has instructions. -/
theorem length_le (he : p.Entry as f a) (hloops : a.flow.loops = [])
    (h : l.Trail p b as liveGlobals past) : past.length ≤ f.instrs.size := by
  simpa using (List.subperm_of_subset (h.nodup he hloops) (h.subset_range he)).length_le

/-- In a function that ends with a terminator a lane has stopped when it has taken as many. -/
theorem length_lt (he : p.Entry as f a) (hloops : a.flow.loops = []) (hends : f.EndsInTerminator)
    (h : l.Trail p b as liveGlobals past) (hl : ¬ l.isFinished) : past.length < f.instrs.size := by
  have hnodup := List.nodup_cons.2 ⟨h.instr_not_mem he hloops hl, h.nodup he hloops⟩
  have hrange := List.cons_subset.2 ⟨List.mem_range.2 (h.run.instr_lt he hends hl), h.subset_range he⟩
  have hlength := (List.subperm_of_subset hnodup hrange).length_le
  rwa [List.length_cons, List.length_map, List.length_range] at hlength

/-- Two steps that assign the same identifier, which is not written through and is not the output, are the
    same step: that of the instruction that defines the identifier. -/
theorem eq_of_assigns (he : p.Entry as f a) (hloops : a.flow.loops = [])
    (h : l.Trail p b as liveGlobals past) (hx : x ≠ ⟨p.idCount + 1⟩) (hwrites : ∀ t ∈ past, ¬ t.Writes x)
    {j k : Nat} {t u : Move} (hj : past[j]? = some t) (hk : past[k]? = some u) (ht : t.Assigns x)
    (hu : u.Assigns x) : j = k := by
  have hdefines : ∀ {j : Nat} {t : Move}, past[j]? = some t → t.Assigns x →
      ∃ i, f.instrs[t.lane.instr]? = some i ∧ i.defined? = some x := by
    intro j t hj ht
    have hmem := List.mem_of_getElem? hj
    have htaken := h.taken t hmem
    obtain ⟨i, hexecutes, hi⟩ := htaken.executes he
    rcases Move.assigns_cases htaken.running htaken.succeeds ht with ⟨i', hi', hdefined⟩ | hwrite | houtput
    · exact ⟨i, hi, hexecutes.unique hi' ▸ hdefined⟩
    · exact absurd hwrite (hwrites t hmem)
    · exact absurd (houtput.trans htaken.run.outputId_eq) hx
  obtain ⟨i, hi, hdefined⟩ := hdefines hj ht
  obtain ⟨i', hi', hdefined'⟩ := hdefines hk hu
  have hinstr := he.describes.eq_of_defined hi hi' hdefined hdefined'
  have hsame : (past.map (·.lane.instr))[j]? = (past.map (·.lane.instr))[k]? := by
    rw [List.getElem?_map, List.getElem?_map, hj, hk]
    exact congrArg some hinstr
  have hlt : j < (past.map (·.lane.instr)).length := by
    rw [List.length_map]
    exact (List.getElem?_eq_some_iff.1 hj).1
  exact (List.getElem?_inj hlt (h.nodup he hloops)).1 hsame

/-- In a function without loops a lane executes an instruction at most once, whatever the other lanes and
    the host do. So it takes at most as many steps as there are instructions. If it still runs then, it has
    run off the end of a function that does not end with a terminator, and can take no other step. An
    identifier through which nothing is written is assigned by at most one of the steps, apart from the
    output, which every store to the signature assigns. -/
theorem executes_once {offset : Nat} (hf : p.entryFunction? = some f)
    (hbuild : FunctionAnalysis.ofFunction p p.entry offset = .ok a) (ha : as.of? p.entry = some a)
    (htargets : f.TargetsAgree) (hloops : a.flow.loops = []) (h : l.Trail p b as liveGlobals past) :
    (∀ t ∈ past, ∃ i, t.Executes i ∧ f.instrs[t.lane.instr]? = some i) ∧
      (past.map (·.lane.instr)).Nodup ∧ (¬ l.isFinished → l.instr ∉ past.map (·.lane.instr)) ∧
      past.length ≤ f.instrs.size ∧
      (past.length = f.instrs.size → ¬ l.isFinished → ¬ f.EndsInTerminator ∧
        ∀ s w, s.program = p → s.analyses = as → ∃ fault, (l.step s w).result = .error fault) ∧
      ∀ x, x ≠ l.outputId → (∀ t ∈ past, ¬ t.Writes x) → ∀ (j k : Nat) (t u : Move),
        past[j]? = some t → past[k]? = some u → t.Assigns x → u.Assigns x → j = k := by
  obtain ⟨f', hf', hdescribes⟩ := FunctionAnalysis.describes_of_ofFunction hbuild
  obtain rfl : f = f' := Option.some.inj (hf.symm.trans hf')
  have he : p.Entry as f a := ⟨hf, ha, hdescribes, htargets⟩
  refine ⟨fun t ht => (h.taken t ht).executes he, h.nodup he hloops, h.instr_not_mem he hloops,
    h.length_le he hloops, fun hlength hl => ⟨fun hends => ?_, fun s w hp has => ?_⟩,
    fun x hx hwrites j k t u => h.eq_of_assigns he hloops (h.run.outputId_eq ▸ hx) hwrites⟩
  · exact absurd hlength (Nat.ne_of_lt (h.length_lt he hloops hends hl))
  · -- a step that succeeds makes a longer trail
    cases hresult : (l.step s w).result with
    | error fault => exact ⟨fault, rfl⟩
    | ok state =>
        have hlonger := (h.stepped hl hp has hresult).length_le he hloops
        rw [List.length_append, List.length_singleton] at hlonger
        omega

end Trail

/-- A lane of a session that has started leaves its steps on its trail when it steps alone. -/
theorem trail_of_start {s : Session} {states : List StepState} (hfresh : s.Fresh p)
    (hstart : s.start.result = .ok states) {host : Host} {k n : Nat} {l₀ : Lane}
    (hl₀ : s.start.session.lanes[k]? = some l₀)
    (hok : ∀ u ∈ List.iterate Move.next (s.start.session.move host k l₀) n,
      ¬ u.lane.isFinished ∧ u.Succeeds) :
    (Move.next^[n] (s.start.session.move host k l₀)).lane.Trail p s.bindings s.analyses s.liveGlobals
      (List.iterate Move.next (s.start.session.move host k l₀) n) := by
  obtain ⟨index, init, henter⟩ := hfresh.enter_of_start hstart (List.mem_of_getElem? hl₀)
  have hby := Session.lanesBy_start hstart
  exact Trail.alone (t := s.start.session.move host k l₀) (.entered henter)
    (hby.program.trans hfresh.program) hby.analyses hok

/-- A program that goes back in the order of its instructions, but not to an instruction that it has
    executed. -/
def backwardBranch : Program :=
  { stage := .compute
    functions := #[{
      name := "backwardBranch"
      blocks := #[{}, { preds := [2] }, { preds := [0] }]
      instrs := #[
        { op := .br, args := [.block 2] },
        { op := .ret },
        { op := .add, ty := .int 32, result := some ⟨0⟩, args := [.const (.int 32 1), .const (.int 32 2)] },
        { op := .br, args := [.block 1] }] }]
    idCount := 1 }

/-- A program that puts out two values and does not return. -/
def outputsWithoutReturn : Program :=
  { stage := .compute
    functions := #[{
      name := "outputsWithoutReturn"
      blocks := #[{}]
      instrs := #[
        { op := .call, callee := some (.intrinsic .storeOutput),
          args := [.const (.int 32 0), .const (.int 32 0), .const (.int 32 0), .const (.int 32 7)] },
        { op := .call, callee := some (.intrinsic .storeOutput),
          args := [.const (.int 32 1), .const (.int 32 0), .const (.int 32 0), .const (.int 32 8)] }] }]
    outputs := [{ name := "low", elem := .uInt, rows := 1, columns := 1 },
      { name := "high", elem := .uInt, rows := 1, columns := 1 }] }

/-- A lane of this program executes three instructions, and comes to the one that it has passed over. -/
theorem backwardBranch_executes_once :
    ∃ (s₀ : Session) (l : Lane) (past : List Move), Session.new backwardBranch {} {} [{}] 0 {} = .ok s₀ ∧
      l.Trail backwardBranch s₀.bindings s₀.analyses s₀.liveGlobals past ∧
      past.map (·.lane.instr) = [0, 2, 3] ∧ l.instr = 1 ∧ l.instr ∉ past.map (·.lane.instr) ∧
      past.length ≤ 4 ∧ (∃ t ∈ past, t.Assigns ⟨0⟩) ∧
      ∀ (j k : Nat) (t u : Move), past[j]? = some t → past[k]? = some u → t.Assigns ⟨0⟩ → u.Assigns ⟨0⟩ →
        j = k := by
  have h : ∃ s₀, Session.new backwardBranch {} {} [{}] 0 {} = .ok s₀ ∧
      ∃ a, s₀.analyses.of? 0 = some a ∧ a.flow.loops = [] ∧
      ∃ states, s₀.start.result = .ok states ∧ ∃ l₀, s₀.start.session.lanes[0]? = some l₀ ∧
        let t := s₀.start.session.move .unbound 0 l₀
        (∀ u ∈ List.iterate Move.next t 3, ¬ u.lane.isFinished ∧ u.Succeeds) ∧
        (List.iterate Move.next t 3).map (·.lane.instr) = [0, 2, 3] ∧
        (Move.next^[3] t).lane.instr = 1 ∧ ¬ (Move.next^[3] t).lane.isFinished ∧
        ∃ u ∈ List.iterate Move.next t 3, (u.lane.value? ⟨0⟩).isNone ∧ (u.stepped.lane.value? ⟨0⟩).isSome := by
    decide +kernel
  obtain ⟨s₀, hnew, a, ha, hloops, states, hstart, l₀, hl₀, hok, hinstrs, hinstr, hfin, v, hv, hbefore,
    hafter⟩ := h
  have hfresh := Session.fresh_of_new hnew
  obtain ⟨offset, hbuild⟩ := FunctionAnalysis.ofFunction_of_ofProgram hfresh.analyses ha
  have htrail := trail_of_start hfresh hstart hl₀ hok
  have htargets : Function.TargetsAgree backwardBranch.functions[0] := by decide
  obtain ⟨-, -, hfresh', hlength, -, honce⟩ := Trail.executes_once rfl hbuild ha htargets hloops htrail
  refine ⟨s₀, _, _, hnew, htrail, hinstrs, hinstr, hfresh' hfin, hlength, ⟨v, hv, .inr fun hsame => ?_⟩,
    fun j k t u => honce ⟨0⟩ ?_ (fun t ht => Move.not_writes ?_) j k t u⟩
  · rw [hsame, Option.isNone_iff_eq_none.1 hbefore] at hafter
    cases hafter
  · rw [htrail.run.outputId_eq]
    decide
  · rw [(htrail.taken t ht).program]
    decide

/-- After as many steps as this program has instructions, a lane has neither returned nor failed, and both of
    the steps have assigned the output. -/
theorem outputsWithoutReturn_assigns_twice :
    ∃ (s₀ : Session) (a : FunctionAnalysis) (l : Lane) (t u : Move),
      Session.new outputsWithoutReturn {} {} [{}] 0 {} = .ok s₀ ∧ s₀.analyses.of? 0 = some a ∧ a.flow.loops = [] ∧
      outputsWithoutReturn.functions[0].TargetsAgree ∧
      l.Trail outputsWithoutReturn s₀.bindings s₀.analyses s₀.liveGlobals [t, u] ∧
      outputsWithoutReturn.functions[0].instrs.size = 2 ∧ ¬ l.isFinished ∧ t.Assigns l.outputId ∧ u.Assigns l.outputId ∧
      ¬ t.Writes l.outputId ∧ ¬ u.Writes l.outputId := by
  have h : ∃ s₀, Session.new outputsWithoutReturn {} {} [{}] 0 {} = .ok s₀ ∧
      ∃ a, s₀.analyses.of? 0 = some a ∧ a.flow.loops = [] ∧
      ∃ states, s₀.start.result = .ok states ∧ ∃ l₀, s₀.start.session.lanes[0]? = some l₀ ∧
        let t := s₀.start.session.move .unbound 0 l₀
        (∀ u ∈ List.iterate Move.next t 2, ¬ u.lane.isFinished ∧ u.Succeeds) ∧
        ¬ (Move.next^[2] t).lane.isFinished ∧
        ∀ u ∈ List.iterate Move.next t 2,
          u.stepped.lane.output.members.map (·.get 0) ≠ u.lane.output.members.map (·.get 0) := by
    decide +kernel
  obtain ⟨s₀, hnew, a, ha, hloops, states, hstart, l₀, hl₀, hok, hfin, houtput⟩ := h
  have htrail := trail_of_start (Session.fresh_of_new hnew) hstart hl₀ hok
  have hassigns : ∀ u ∈ List.iterate Move.next (s₀.start.session.move .unbound 0 l₀) 2,
      u.Assigns ⟨outputsWithoutReturn.idCount + 1⟩ := fun u hu =>
    (htrail.taken u hu).assigns_output fun hsame => houtput u hu (congrArg (·.members.map (·.get 0)) hsame)
  have hwrites : ∀ u ∈ List.iterate Move.next (s₀.start.session.move .unbound 0 l₀) 2,
      ¬ u.Writes ⟨outputsWithoutReturn.idCount + 1⟩ := by
    intro u hu
    refine Move.not_writes ?_
    rw [(htrail.taken u hu).program]
    decide
  refine ⟨s₀, a, _, _, _, hnew, ha, hloops, by decide, htrail, rfl, hfin, ?_⟩
  rw [htrail.run.outputId_eq]
  exact ⟨hassigns _ List.mem_cons_self, hassigns _ (.tail _ List.mem_cons_self),
    hwrites _ List.mem_cons_self, hwrites _ (.tail _ List.mem_cons_self)⟩

end Lane

end Lockstep
