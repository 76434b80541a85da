import Lockstep.Proofs.Lane.Follow
import Lockstep.Proofs.Layout

set_option autoImplicit false

/-! # Steps that a watch window follows

A store reports the allocation and the pointer that it gives new values. So a watch window that shows a
lane can follow each step of it, and shows the lane afterwards (`Lane.follows_of_step`). The lane's
copies of global variables always show what memory holds, so that to read them again changes nothing. -/

namespace Lockstep

/-- What an outcome assigns. -/
def Outcome.Assigns (o : Outcome) (id : Id) (v : Variable) : Prop :=
  ∃ report, o = .effect (.assign id v report)

/-- What holds of a lane that a window follows. The values of global variables show what memory holds,
    apart from one that is about to be assigned. -/
structure Lane.Kept (p : Program) (aside : String → Prop) (o : Outcome) (l : Lane) (shared : Memory) :
    Prop where
  size : l.cells.size = p.idCount
  places : p.Places l.memory shared
  output : aside l.output.name
  shows : ∀ {id v a}, p.IsGlobal id → (∀ w, ¬ o.Assigns id w) → l.scene.value id = some v →
    shared.allocation? id = some a → v.Shows a.bytes

namespace Step

variable {p : Program} {aside : String → Prop} {s : Setting} {i : Instr} {o : Outcome} {l : Lane}
  {shared : Memory} {w : World} {w₀ : Watch} {m m' : Machine} {id : Id} {v : Variable} {q : Pointer}
  {bytes : Bytes} {a : FunctionAnalysis}

theorem not_assigns_proceed (id : Id) (v : Variable) : ¬ (Outcome.effect .proceed).Assigns id v :=
  fun ⟨_, h⟩ => nomatch h

/-- An instruction has done its work, and what is left to be done fits the window. -/
structure Ready (p : Program) (aside : String → Prop) (i : Instr) (w₀ : Watch) (m : Machine)
    (o : Outcome) : Prop where
  watched : Watched p.Names aside i w₀ m
  kept : m.lane.Kept p aside o m.world.memory
  reportable : Reportable p.Names aside i m.lane o
  shows : ∀ {id v a}, o.Assigns id v → p.IsGlobal id → m.world.memory.allocation? id = some a →
    (i.assigned v).Shows a.bytes

/-! ## Instructions that write nothing -/

theorem Reportable.of_still {names : Id → String → Prop} (h : Reportable names aside i l o)
    (hm : Still p i l shared m) : Reportable names aside i m.lane o := by
  rw [hm.lane]
  cases h with
  | proceed => exact .proceed
  | kill => exact .kill
  | jump block => exact .jump block
  | leave => exact .leave
  | value hid hname hdropped hmark =>
      exact .value hid hname (fun h => hdropped ⟨h.assigned, h.scope⟩) hmark
  | silent hid hhides haside => exact .silent hid hhides haside
  | output hi haside => exact .output hi haside

/-- An instruction that writes nothing. -/
theorem ready_of_still (hp : p.Watchable i l) (hside : l.LeavesAside p.Names aside s w.memory i)
    (hkept : l.Kept p aside (.effect .proceed) w.memory) (hshown : l.scene.Shown p.Names aside w₀)
    (hwrites : ¬ i.writesMemory)
    (hok : (Step.instruction s i).on { lane := l.advanced, world := w } = (.ok o, m')) :
    Ready p aside i w₀ m' o := by
  have hstart : Still p i l w.memory { lane := l.advanced, world := w } :=
    ⟨rfl, fun c hc => by simp at hc, rfl, hkept.places⟩
  obtain ⟨hm', hreportable, hspares⟩ := hstart.of_instruction hp hside hkept.output hwrites hok
  have hcells : m'.lane.cells = l.cells := (congrArg Lane.cells hm'.lane :)
  have hinput : m'.lane.input = l.input := (congrArg Lane.input hm'.lane :)
  have houtput : m'.lane.output = l.output := (congrArg Lane.output hm'.lane :)
  have hscene := Lane.scene_of_cells hcells hinput
  refine ⟨⟨w₀, ?_, hscene ▸ hshown⟩, ⟨?_, ?_, ?_, ?_⟩, hreportable.of_still hm', ?_⟩
  · have hmarks : i.shownChanges m'.changes.toList = [] :=
      List.filter_eq_nil_iff.2 fun c hc => by simp [hm'.marks c (Array.mem_toList_iff.1 hc)]
    rw [hmarks]
    exact .nil
  · exact hcells ▸ hkept.size
  · exact hm'.memory ▸ hm'.places
  · exact houtput ▸ hkept.output
  · intro id v a hglobal _ hv ha
    rw [hscene] at hv
    rw [hm'.memory] at ha
    exact hkept.shows hglobal (not_assigns_proceed id) hv ha
  · rintro id v a ⟨report, ho⟩ hglobal
    exact absurd hglobal (hspares ho)

/-! ## Stores -/

theorem overwrite_ok (hid : id.index < m.lane.cells.size)
    (h : (overwrite id v).on m = (.ok (), m')) :
    m' = { m with
      lane := m.lane.assign id v
      changes := m.changes.push (.updated ((m.lane.value? id).getD .empty) v) } := by
  unfold overwrite at h
  obtain ⟨l, _, hlane, h₁⟩ := ok_of_on_bind h
  cases hlane
  rw [if_pos (by simp [Lane.hasPlace]; omega)] at h₁
  cases h₁
  rfl

/-- A write changes one allocation, of the lane or of the shared memory. -/
theorem writeThrough_ok (h : (writeThrough q bytes).on m = (.ok (), m')) :
    ∃ own shared, m' = { m with
        lane := { m.lane with memory := own }
        world := { m.world with memory := shared } } ∧
      own.pointers = m.lane.memory.pointers ∧
      (∀ base, own.hasAllocation base = m.lane.memory.hasAllocation base) ∧
      shared.pointers = m.world.memory.pointers ∧
      ∀ base, base ≠ q.base → shared.allocation? base = m.world.memory.allocation? base := by
  unfold writeThrough at h
  obtain ⟨l, _, hlane, h₁⟩ := ok_of_on_bind h
  cases hlane
  split at h₁
  · obtain ⟨l, _, hlane, h₂⟩ := ok_of_on_bind h₁
    cases hlane
    obtain ⟨own, _, hown, h₃⟩ := ok_of_on_bind h₂
    obtain ⟨hwrite, rfl⟩ := Prod.mk.inj hown
    cases h₃
    obtain ⟨hpointers, hallocations, -⟩ := Memory.write_ok hwrite
    exact ⟨own, m.world.memory, rfl, hpointers, hallocations, rfl, fun _ _ => rfl⟩
  · obtain ⟨shared, _, hshared, h₂⟩ := ok_of_on_bind h₁
    cases hshared
    obtain ⟨shared, _, hshared, h₃⟩ := ok_of_on_bind h₂
    obtain ⟨hwrite, rfl⟩ := Prod.mk.inj hshared
    cases h₃
    obtain ⟨hpointers, -, hallocations⟩ := Memory.write_ok hwrite
    exact ⟨m.lane.memory, shared, rfl, rfl, fun _ => rfl, hpointers, hallocations⟩

theorem Instr.intrinsic?_of_writesMemory (hi : i.writesMemory) : i.intrinsic? = none := by
  unfold Instr.writesMemory at hi
  unfold Instr.intrinsic?
  split
  · next hop _ =>
      rw [hop] at hi
      cases hi
  · rfl

theorem Instr.assigned_of_writesMemory (hi : i.writesMemory) (v : Variable) : i.assigned v = v := by
  have hflush : i.isFlushing = false := by
    unfold Instr.writesMemory at hi
    unfold Instr.isFlushing
    split at hi <;> simp_all
  rw [Instr.assigned, hflush]
  rfl

/-- A value that is about to be reported under its own name, or aside. -/
theorem Reportable.of_value {names : Id → String → Prop} (hi : i.intrinsic? = none)
    (h : Reportable names aside i l (.effect (.value id v))) :
    id.index < l.cells.size ∧ (l.Dropped id → Scene.Hides names aside id) := by
  cases h with
  | value hid _ hdropped _ => exact ⟨hid, hdropped⟩
  | output hop _ =>
      rw [hi] at hop
      cases hop

/-- An identifier that gets other content may be assigned. -/
theorem Ready.of_value (hi : i.writesMemory) (hw : Watched p.Names aside i w₀ m)
    (hk : m.lane.Kept p aside (.effect (.value id v)) m.world.memory)
    (hid : id.index < m.lane.cells.size) (hdropped : m.lane.Dropped id → Scene.Hides p.Names aside id)
    {before : Variable} (hbefore : m.lane.value? id = some before) (hname : v.name = before.name)
    (hshows : ∀ {a}, p.IsGlobal id → m.world.memory.allocation? id = some a → v.Shows a.bytes) :
    Ready p aside i w₀ m (.effect (.value id v)) := by
  have ⟨_, _, hshown⟩ := hw
  rw [← Lane.value_scene hid] at hbefore
  refine ⟨hw, hk, .value hid (hname ▸ hshown.named hbefore) hdropped fun huses => ?_, ?_⟩
  · rw [Instr.intrinsic?_of_writesMemory hi] at huses
    cases huses
  · rintro x u a ⟨report, heq⟩ hglobal ha
    cases heq
    rw [Instr.assigned_of_writesMemory hi]
    exact hshows hglobal ha

/-- To replace a value is reported. -/
theorem Ready.overwrite (hp : p.WellNamed) (hi : i.writesMemory)
    (h : Ready p aside i w₀ m (.effect (.value id v))) {before : Variable}
    (hbefore : m.lane.value? id = some before) (hname : v.name = before.name)
    (hok : (Step.overwrite id v).on m = (.ok (), m')) :
    Watched p.Names aside i w₀ m' ∧ m'.lane.Kept p aside (.effect .proceed) m'.world.memory ∧
      m'.lane.frame = m.lane.frame := by
  obtain ⟨hid, hdropped⟩ := h.reportable.of_value (Instr.intrinsic?_of_writesMemory hi)
  have hm' := overwrite_ok hid hok
  rw [hbefore, Option.getD_some] at hm'
  subst hm'
  have hscene := Lane.scene_assign hid v
  refine ⟨h.watched.report (Array.push_eq_append ..) (fun c hc => ?_) fun w hw => ?_,
    ⟨(Lane.size_assign ..).trans h.kept.size, ?_, ?_, ?_⟩,
    Lane.frame_assign id v (Option.isSome_of_eq_some hbefore)⟩
  · rw [List.mem_singleton.1 hc, Change.isMark, Instr.intrinsic?_of_writesMemory hi]
    simp
  · rw [hscene]
    rw [← Lane.value_scene hid] at hbefore
    refine hw.overwrite hp.distinct hbefore hname fun hlive => hdropped ?_
    exact Lane.dropped_of_scene hid (Option.isSome_of_eq_some hbefore) hlive
  · rw [Lane.memory_assign]
    exact h.kept.places
  · rw [Lane.assign, if_pos hid]
    exact h.kept.output
  · intro x u a hglobal _ hu ha
    rw [hscene] at hu
    simp only [Scene.set] at hu
    split at hu
    · next hx =>
        cases hu
        have hshows := h.shows ⟨true, rfl⟩ (hx ▸ hglobal) (hx ▸ ha)
        rwa [Instr.assigned_of_writesMemory hi] at hshows
    · next hx =>
        refine h.kept.shows hglobal ?_ hu ha
        rintro w ⟨report, heq⟩
        cases heq
        exact hx rfl

/-- A write leaves one value to be refreshed. -/
theorem kept_of_write (hk : m.lane.Kept p aside (.effect .proceed) m.world.memory)
    (hw : Watched p.Names aside i w₀ m) (hok : (writeThrough q bytes).on m = (.ok (), m')) (v : Variable) :
    Watched p.Names aside i w₀ m' ∧
      m'.lane.Kept p aside (.effect (.value q.base v)) m'.world.memory ∧
      m'.lane.frame = m.lane.frame := by
  obtain ⟨own, shared, rfl, hpointers, hallocations, hpointers', hallocations'⟩ := writeThrough_ok hok
  refine ⟨hw.of_scene rfl rfl, ⟨hk.size, ⟨?_, ?_, ?_⟩, hk.output, ?_⟩, rfl⟩
  · intro id q' hq'
    rw [Memory.pointer?, hpointers] at hq'
    exact hk.places.pointer hq'
  · intro id hid
    rw [hallocations] at hid
    exact hk.places.allocation hid
  · intro id q' hq'
    rw [Memory.pointer?, hpointers'] at hq'
    exact hk.places.shared hq'
  · intro id u a hglobal hassigns hu ha
    have hne : id ≠ q.base := by
      rintro rfl
      exact hassigns v ⟨true, rfl⟩
    rw [hallocations' id hne] at ha
    exact hk.shows hglobal (not_assigns_proceed id) hu ha

/-- A store reports the allocation, unless that is the pointer, and leaves the pointer to be assigned. -/
theorem ready_of_store (hp : p.WellNamed) (hi : i.writesMemory) (hw : Watched p.Names aside i w₀ m)
    (hk : m.lane.Kept p aside (.effect .proceed) m.world.memory)
    (hq : m.lane.resolve m.world.memory id = .ok q)
    (hdropped : ∀ x, x = id ∨ x = q.base → m.lane.Dropped x → Scene.Hides p.Names aside x)
    {target : Id} (hok : (store id q bytes).on m = (.ok (target, v), m')) :
    Ready p aside i w₀ m' (.effect (.value target v)) ∧ m'.lane.frame = m.lane.frame ∧
      ∃ before, m'.lane.value? target = some before ∧ v.name = before.name := by
  have hids := hk.places.of_resolve hq
  have hbase : p.IsResult q.base ∨ p.IsGlobal q.base := by
    rcases hids with ⟨-, hbase⟩ | ⟨hglobal, hbase⟩
    · exact hbase
    · exact .inr (hbase ▸ hglobal)
  unfold store at hok
  obtain ⟨_, _, hwrite, h₁⟩ := ok_of_on_bind hok
  obtain ⟨_, _, hlane, h₂⟩ := ok_of_on_bind h₁
  cases hlane
  obtain ⟨_, _, hshared, h₃⟩ := ok_of_on_bind h₂
  cases hshared
  obtain ⟨old, m₁, hassigned, h₄⟩ := ok_of_on_bind h₃
  obtain ⟨rfl, hold⟩ := assigned_ok hassigned
  obtain ⟨after, _, hafter, h₅⟩ := ok_of_on_bind h₄
  obtain ⟨hreload, rfl⟩ := Prod.mk.inj hafter
  obtain ⟨a, ha, hafter⟩ := Memory.reload_ok hreload
  obtain ⟨hw₁, hk₁, hframe₁⟩ := kept_of_write hk hw hwrite after
  have hname : after.name = old.name := hafter ▸ Variable.name_ofBytes ..
  have hready₁ : Ready p aside i w₀ m₁ (.effect (.value q.base after)) := by
    refine .of_value hi hw₁ hk₁ ?_ ?_ hold hname ?_
    · rw [hk₁.size]
      exact hbase.elim hp.index_lt_of_result hp.index_lt_of_global
    · intro h
      exact hdropped _ (.inr rfl) ((Lane.dropped_of_frame hframe₁).1 h)
    · intro a' hglobal ha'
      -- the allocation of a global variable is not the lane's own
      have hown : ¬ m₁.lane.memory.hasAllocation q.base :=
        fun h => hp.apart (hk₁.places.allocation h) hglobal
      rw [Lane.memoryOf, if_neg hown, ha'] at ha
      cases ha
      exact hafter ▸ Variable.shows_ofBytes ..
  split at h₅
  · next heq =>
      cases h₅
      exact ⟨hready₁, hframe₁, old, hold, hname⟩
  · next hne =>
      obtain ⟨_, m₂, hover, h₆⟩ := ok_of_on_bind h₅
      obtain ⟨x, _, hx, h₇⟩ := ok_of_on_bind h₆
      obtain ⟨rfl, hx⟩ := assigned_ok hx
      obtain ⟨content, _, hread, h₈⟩ := ok_of_on_bind h₇
      obtain ⟨rfl, -⟩ := readThrough_ok hread
      cases h₈
      obtain ⟨hw₂, hk₂, hframe₂⟩ := hready₁.overwrite hp hi hold hname hover
      have hresult : p.IsResult id := by
        rcases hids with ⟨hresult, -⟩ | ⟨-, hbase⟩
        · exact hresult
        · exact absurd hbase.symm hne
      have hframe := hframe₂.trans hframe₁
      refine ⟨.of_value hi hw₂ ?_ ?_ ?_ hx (Variable.name_ofBytes ..) ?_, hframe, x, hx,
        Variable.name_ofBytes ..⟩
      · exact ⟨hk₂.size, hk₂.places, hk₂.output, fun hglobal _ =>
          hk₂.shows hglobal (not_assigns_proceed _)⟩
      · exact hk₂.size ▸ hp.index_lt_of_result hresult
      · intro h
        exact hdropped _ (.inl rfl) ((Lane.dropped_of_frame hframe).1 h)
      · intro a' hglobal
        exact absurd hglobal (hp.apart hresult)

/-- What a store to the pointer of the first operand leaves to be assigned. -/
theorem ready_of_storeArg (hp : p.WellNamed) (hi : i.writesMemory)
    (hw : Watched p.Names aside i w₀ m) (hk : m.lane.Kept p aside (.effect .proceed) m.world.memory)
    (hdropped : ∀ {x}, m.lane.Writes m.world.memory i x → m.lane.Dropped x →
      Scene.Hides p.Names aside x)
    {e : Effect} (hok : (storeArg i).on m = (.ok e, m')) : Ready p aside i w₀ m' (.effect e) := by
  unfold storeArg at hok
  obtain ⟨⟨id, q⟩, _, hpointer, h₁⟩ := ok_of_on_bind hok
  obtain ⟨rfl, hid, hq⟩ := pointerArg_ok hpointer
  obtain ⟨v, _, harg, h₂⟩ := ok_of_on_bind h₁
  obtain ⟨rfl, -⟩ := arg_ok harg
  obtain ⟨⟨target, v⟩, m₁, hstore, h₃⟩ := ok_of_on_bind h₂
  cases h₃
  refine (ready_of_store hp hi hw hk hq ?_ hstore).1
  rintro x (rfl | rfl)
  · exact hdropped (.pointer hi hid)
  · exact hdropped (.base hi hid hq)

/-- An atomic update that has a result reports the pointer, too. -/
theorem ready_of_atomic (hp : p.Watchable i l) (hi : i.writesMemory)
    (hw : Watched p.Names aside i w₀ m) (hk : m.lane.Kept p aside (.effect .proceed) m.world.memory)
    (hdropped : ∀ {x}, m.lane.Writes m.world.memory i x → m.lane.Dropped x →
      Scene.Hides p.Names aside x)
    {e : Effect} (hok : (atomic i).on m = (.ok e, m')) : Ready p aside i w₀ m' (.effect e) := by
  unfold atomic at hok
  obtain ⟨⟨id, q⟩, _, hpointer, h₁⟩ := ok_of_on_bind hok
  obtain ⟨rfl, hid, hq⟩ := pointerArg_ok hpointer
  obtain ⟨operand, _, harg, h₂⟩ := ok_of_on_bind h₁
  obtain ⟨rfl, -⟩ := arg_ok harg
  obtain ⟨content, _, hread, h₃⟩ := ok_of_on_bind h₂
  obtain ⟨rfl, -⟩ := readThrough_ok hread
  dsimp only at h₃
  split at h₃
  · cases h₃
  · obtain ⟨⟨target, v⟩, m₁, hstore, h₄⟩ := ok_of_on_bind h₃
    obtain ⟨hready, hframe₁, before, hbefore, hname⟩ := ready_of_store hp.wellNamed hi hw hk hq
      (fun x hx => hx.elim (fun h => h ▸ hdropped (.pointer hi hid))
        fun h => h ▸ hdropped (.base hi hid hq)) hstore
    dsimp only at h₄
    split at h₄
    · cases h₄
      exact hready
    · next result hresult =>
        obtain ⟨_, m₂, hover, h₅⟩ := ok_of_on_bind h₄
        cases h₅
        obtain ⟨hw₂, hk₂, hframe₂⟩ := hready.overwrite hp.wellNamed hi hbefore hname hover
        have hisResult := hp.isResult hresult
        refine ⟨hw₂, ?_, .value ?_ (.inl (hp.named hresult)) ?_ fun huses => ?_, ?_⟩
        · exact ⟨hk₂.size, hk₂.places, hk₂.output, fun hglobal _ =>
            hk₂.shows hglobal (not_assigns_proceed _)⟩
        · exact hk₂.size ▸ hp.wellNamed.index_lt_of_result hisResult
        · intro h
          exact hdropped (.result hresult) ((Lane.dropped_of_frame (hframe₂.trans hframe₁)).1 h)
        · rw [Instr.intrinsic?_of_writesMemory hi] at huses
          cases huses
        · rintro x u a ⟨report, heq⟩ hglobal
          cases heq
          exact absurd hglobal (hp.wellNamed.apart hisResult)

/-- The instructions that write through a pointer. -/
theorem on_instruction_of_writesMemory (hi : i.writesMemory)
    (hok : (Step.instruction s i).on m = (.ok o, m')) :
    ∃ e, o = .effect e ∧ ((storeArg i).on m = (.ok e, m') ∨ (atomic i).on m = (.ok e, m')) := by
  have hterminator : ¬ i.isTerminator := by
    unfold Instr.writesMemory at hi
    unfold Instr.isTerminator
    split at hi <;> simp_all [Opcode.isTerminator]
  have hcompute : (compute s i).on m = (memory i).on m := by
    unfold Instr.writesMemory at hi
    unfold compute
    split at hi
    all_goals first
      | (next hop => rw [hop]; rfl)
      | cases hi
  have hmemory : (memory i).on m = (storeArg i).on m ∨ (memory i).on m = (atomic i).on m := by
    have hreads : ∀ {op}, i.op = op → op ∉ [.alloca, .load, .loadAtomic, .getElementPtr] := by
      rintro _ rfl hop
      simp only [List.mem_cons, List.not_mem_nil, or_false] at hop
      rcases hop with hop | hop | hop | hop <;> simp [Instr.writesMemory, hop] at hi
    unfold memory
    split
    · next hop => exact absurd (by simp) (hreads hop)
    · next hop => exact absurd (by simp) (hreads hop)
    · next hop => exact absurd (by simp) (hreads hop)
    · exact .inl rfl
    · exact .inl rfl
    · next hop => exact absurd (by simp) (hreads hop)
    · exact .inr rfl
  unfold Step.instruction at hok
  rw [if_neg hterminator] at hok
  obtain ⟨e, m₁, he, h₁⟩ := ok_of_on_bind hok
  cases h₁
  rw [hcompute] at he
  exact ⟨e, rfl, hmemory.imp (fun h => h.symm.trans he) fun h => h.symm.trans he⟩

/-! ## Outcomes -/

/-- Where no value of a global variable changes. -/
theorem Kept.congr {l' : Lane} (h : l.Kept p aside o shared)
    (ho : ∀ {id v}, p.IsGlobal id → ¬ o.Assigns id v) (hsize : l'.cells.size = l.cells.size)
    (hmemory : l'.memory = l.memory) (houtput : aside l'.output.name)
    (hvalue : l'.scene.value = l.scene.value) : l'.Kept p aside (.effect .proceed) shared := by
  refine ⟨hsize.trans h.size, hmemory ▸ h.places, houtput, fun hglobal _ hv => ?_⟩
  exact h.shows hglobal (fun _ => ho hglobal) (hvalue ▸ hv)

theorem kept_retire (h : l.Kept p aside o shared) (ho : ∀ {id v}, p.IsGlobal id → ¬ o.Assigns id v)
    (keep : Option Id) : (l.retire a keep).Kept p aside (.effect .proceed) shared := by
  refine Kept.congr h ho Array.size_mapIdx rfl h.output ?_
  rw [Lane.scene_retire, (Scene.value_dropAll ..).1]

/-- An identifier is assigned after others have been dropped. -/
theorem Ready.kept_assign {report : Bool} (h : Ready p aside i w₀ m (.effect (.assign id v report)))
    (hid : id.index < m.lane.cells.size)
    (hok : (Step.conclude a i (.effect (.assign id v report))).on m = (.ok (), m')) :
    m'.lane.Kept p aside (.effect .proceed) m'.world.memory := by
  obtain ⟨_, m₁, hretire, hassign⟩ := ok_of_on_bind hok
  cases (on_retire ..).symm.trans hretire
  obtain ⟨-, events, rfl⟩ := assign_ok hassign
  have hid' : id.index < (m.lane.retire a (some id)).cells.size := Array.size_mapIdx.symm ▸ hid
  refine ⟨?_, ?_, ?_, ?_⟩
  · rw [Lane.bringIntoScope, Array.size_modify, Lane.size_assign]
    exact Array.size_mapIdx.trans h.kept.size
  · rw [Lane.bringIntoScope, Lane.memory_assign]
    exact h.kept.places
  · rw [Lane.bringIntoScope, Lane.assign, if_pos hid']
    exact h.kept.output
  · intro x u b hglobal _ hu hb
    rw [Lane.scene_bringIntoScope (by rwa [Lane.size_assign]), Lane.scene_assign hid',
      Lane.scene_retire] at hu
    simp only [Scene.raise, Scene.set, (Scene.value_dropAll ..).1] at hu
    split at hu
    · next hx =>
        cases hu
        exact h.shows ⟨report, rfl⟩ (hx ▸ hglobal) (hx ▸ hb)
    · next hx =>
        refine h.kept.shows hglobal ?_ hu hb
        rintro w ⟨_, heq⟩
        cases heq
        exact hx rfl

/-- What is done in the end. -/
theorem Ready.conclude (hp : p.WellNamed) (h : Ready p aside i w₀ m o)
    (hok : (Step.conclude a i o).on m = (.ok (), m')) :
    Watched p.Names aside i w₀ m' ∧ m'.lane.Kept p aside (.effect .proceed) m'.world.memory := by
  refine ⟨h.watched.conclude hp.distinct h.reportable hok, ?_⟩
  have hreportable := h.reportable
  cases hreportable with
  | proceed =>
      cases (on_retire ..).symm.trans hok
      exact kept_retire h.kept (fun _ => not_assigns_proceed _ _) none
  | kill =>
      cases hok
      exact Kept.congr h.kept (fun _ ⟨_, h⟩ => nomatch h) rfl rfl h.kept.output rfl
  | leave =>
      cases hok
      exact Kept.congr h.kept (fun _ ⟨_, h⟩ => nomatch h) rfl rfl h.kept.output rfl
  | jump block =>
      obtain ⟨_, _, hlane, h₁⟩ := ok_of_on_bind hok
      cases hlane
      obtain ⟨l, _, hjump, h₂⟩ := ok_of_on_bind h₁
      obtain ⟨hl, rfl⟩ := Prod.mk.inj hjump
      obtain ⟨_, m₁, hmodify, h₃⟩ := ok_of_on_bind h₂
      cases hmodify
      cases (on_retire ..).symm.trans h₃
      have hkept : l.Kept p aside (.jump block) m.world.memory := by
        obtain ⟨_, -, rfl⟩ := Lane.jumpTo_ok hl
        exact ⟨h.kept.size, h.kept.places, h.kept.output, h.kept.shows⟩
      exact kept_retire hkept (fun _ ⟨_, h⟩ => nomatch h) none
  | value hid _ _ _ => exact h.kept_assign hid hok
  | silent hid _ _ => exact h.kept_assign hid hok
  | @output v hi haside =>
      obtain ⟨_, _, hretire, hassign⟩ := ok_of_on_bind hok
      cases (on_retire ..).symm.trans hretire
      obtain ⟨-, events, rfl⟩ := assign_ok hassign
      have hid : m.lane.outputId = (m.lane.retire a (some m.lane.outputId)).outputId := by
        rw [Lane.outputId, Lane.outputId, Lane.retire, Array.size_mapIdx]
      have hspares : ∀ {x u}, p.IsGlobal x →
          ¬ (Outcome.effect (.value m.lane.outputId v)).Assigns x u := by
        rintro x u hglobal ⟨_, heq⟩
        cases heq
        have hlt := hp.index_lt_of_global hglobal
        rw [← h.kept.size, Lane.outputId] at hlt
        exact absurd hlt (by simp)
      have hkept := kept_retire (a := a) h.kept hspares (some m.lane.outputId)
      dsimp only
      generalize m.lane.retire a (some m.lane.outputId) = l' at hid hkept ⊢
      rw [hid, Lane.bringIntoScope_assign_outputId]
      exact ⟨hkept.size, hkept.places, (elem_assigned i v).2 ▸ haside, hkept.shows⟩

end Step

namespace Lane

variable {p : Program} {aside : String → Prop} {s : Setting} {i : Instr} {l : Lane} {w : World}
  {watch : Watch} {a : FunctionAnalysis} {state : StepState}

/-- A watch window that shows a lane follows the changes that a step reports, without marks, and shows
    the lane that the step leaves. -/
theorem follows_of_step (hp : s.program.WellNamed) (hl : ¬ l.isFinished)
    (hkept : l.Kept s.program aside (.effect .proceed) w.memory)
    (hshown : l.scene.Shown s.program.Names aside watch)
    (hnext : l.nextInstr s.program s.analyses = .ok (a, i))
    (hside : l.LeavesAside s.program.Names aside s w.memory i)
    (hok : (l.step s w).result = .ok state) :
    (∃ watch', watch.Follows aside (i.shownChanges state.changes) watch' ∧
      (l.step s w).lane.scene.Shown s.program.Names aside watch') ∧
    (l.step s w).lane.Kept s.program aside (.effect .proceed) (l.step s w).world.memory := by
  obtain ⟨m, hm, hstep, rfl⟩ := execute_of_step hl hok
  obtain ⟨a', i', o, m₁, hnext', ho, hm⟩ := Step.execute_iff.1 hm
  obtain ⟨rfl, rfl⟩ := Prod.mk.inj (Except.ok.inj (hnext.symm.trans hnext'))
  obtain ⟨-, f, hf, hi⟩ := nextInstr_eq_ok hnext
  have hwatchable : s.program.Watchable i l :=
    ⟨hp, hkept.size, f, Array.mem_of_getElem? hf, Array.mem_of_getElem? hi⟩
  have hready : Step.Ready s.program aside i watch m₁ o := by
    by_cases hwrites : i.writesMemory
    · obtain ⟨e, rfl, he⟩ := Step.on_instruction_of_writesMemory hwrites ho
      have hw : Step.Watched s.program.Names aside i watch { lane := l.advanced, world := w } :=
        ⟨watch, .nil, hshown⟩
      have hk : l.advanced.Kept s.program aside (.effect .proceed) w.memory :=
        ⟨hkept.size, hkept.places, hkept.output, hkept.shows⟩
      have hdropped : ∀ {x}, l.advanced.Writes w.memory i x → l.advanced.Dropped x →
          Scene.Hides s.program.Names aside x := by
        intro x hx hdrop
        refine hside.dropped ?_ ⟨hdrop.assigned, hdrop.scope⟩
        cases hx with
        | result hid => exact .result hid
        | pointer hi hid => exact .pointer hi hid
        | base hi hid hq => exact .base hi hid hq
      rcases he with he | he
      · exact Step.ready_of_storeArg hp hwrites hw hk hdropped he
      · exact Step.ready_of_atomic hwatchable hwrites hw hk hdropped he
    · exact Step.ready_of_still hwatchable hside hkept hshown hwrites ho
  obtain ⟨hwatched, hkept'⟩ := hready.conclude hp hm
  rw [hstep]
  exact ⟨hwatched, hkept'⟩

end Lane

end Lockstep
