import Lockstep.Proofs.Exec.Mirror
import Lockstep.Proofs.Lane.Step

set_option autoImplicit false

/-! # What the reporting lane has of its own

A step of the reporting lane and the same step without a report do the same, but for the output and
for the resources whose use has been reported (`Lane.quiet_of_step`). Where the lanes that take the
step already differ in these, nothing that the step reads may be the output. -/

namespace Lockstep

/-- All pointers lead to identifiers below a bound. -/
structure Memory.Within (m : Memory) (n : Nat) : Prop where
  base : ∀ {id p}, m.pointer? id = some p → p.base.index < n

/-- An instruction names identifiers below a bound only. -/
structure Instr.Within (i : Instr) (n : Nat) : Prop where
  args : ∀ {id}, .ref id ∈ i.args → id.index < n
  result : ∀ {id}, i.result = some id → id.index < n

namespace Memory.Within

variable {m m' : Memory} {n : Nat}

theorem resolve {l : Lane} (h : l.memory.Within n) (hm : m.Within n) {id : Id} {p : Pointer}
    (hp : l.resolve m id = .ok p) : p.base.index < n := by
  unfold Lane.resolve at hp
  split at hp
  · next q hq =>
      cases hp
      rcases (Option.orElse_eq_some ..).1 hq with hq | ⟨-, hq⟩
      · exact h.base hq
      · exact hm.base hq
  · cases hp

theorem addPointer (h : m.Within n) (id : Id) {p : Pointer} (hp : p.base.index < n) :
    (m.addPointer id p).Within n := by
  constructor
  intro id' q hq
  rw [pointer?, Memory.addPointer, Table.get?_insert] at hq
  split at hq
  · cases hq
    exact hp
  · exact h.base hq

theorem allocate (h : m.Within n) {id : Id} (hid : id.index < n) (pointee : Ty) (isGlobal : Bool) :
    (m.allocate id pointee isGlobal).Within n := by
  constructor
  intro id' q hq
  rw [pointer?, Memory.allocate, Table.get?_insert] at hq
  split at hq
  · cases hq
    exact hid
  · exact h.base hq

theorem write (h : m.Within n) {p : Pointer} {bytes : Bytes} (hm' : m.write p bytes = .ok m') :
    m'.Within n := by
  unfold Memory.write at hm'
  split at hm'
  · cases hm'
  · split at hm'
    · cases hm'
    · split at hm'
      · cases hm'
      · cases hm'
        exact ⟨h.base⟩

end Memory.Within

namespace Lane

/-- A lane without what it only has when it reports. -/
def quiet (l : Lane) : Lane := { l with output := .empty, accessed := [] }

variable {l l' : Lane}

/-! ## Quiet lanes -/

theorem eq_of_quiet {α : Type} (f : Lane → α) (h : l'.quiet = l.quiet)
    (hf : ∀ l : Lane, f l.quiet = f l) : f l' = f l := by
  rw [← hf l', h, hf]

theorem exists_of_quiet (h : l'.quiet = l.quiet) :
    ∃ output accessed, l' = { l with output, accessed } := by
  refine ⟨l'.output, l'.accessed, ?_⟩
  show { l'.quiet with output := l'.output, accessed := l'.accessed } = _
  rw [h]
  rfl

theorem quiet_assign_quiet (l : Lane) (id : Id) (v : Variable) :
    (l.quiet.assign id v).quiet = (l.assign id v).quiet := by
  unfold assign
  show (if id.index < l.cells.size then _ else if id = l.inputId then _ else
    if id = l.outputId then _ else _ : Lane).quiet = _
  split
  · rfl
  · split
    · rfl
    · split <;> rfl

theorem output_assign (h : l'.quiet = l.quiet) (id : Id) (v : Variable)
    (houtput : l'.output = l.output) : (l'.assign id v).output = (l.assign id v).output := by
  have hsize := eq_of_quiet (·.cells.size) h fun _ => rfl
  unfold assign inputId outputId
  rw [hsize]
  split
  · exact houtput
  · split
    · exact houtput
    · split
      · rfl
      · exact houtput

theorem quiet_assign (h : l'.quiet = l.quiet) (id : Id) (v : Variable) :
    (l'.assign id v).quiet = (l.assign id v).quiet := by
  rw [← quiet_assign_quiet l', h, quiet_assign_quiet]

theorem quiet_bringIntoScope (h : l'.quiet = l.quiet) (id : Id) :
    (l'.bringIntoScope id).quiet = (l.bringIntoScope id).quiet :=
  show l'.quiet.bringIntoScope id = l.quiet.bringIntoScope id from h ▸ rfl

theorem quiet_retire (h : l'.quiet = l.quiet) (a : FunctionAnalysis) (keep : Option Id) :
    (l'.retire a keep).quiet = (l.retire a keep).quiet :=
  show l'.quiet.retire a keep = l.quiet.retire a keep from h ▸ rfl

/-- The output does not go out of scope. -/
theorem retire_outputId (l : Lane) (a : FunctionAnalysis) :
    l.retire a (some l.outputId) = l.retire a none := by
  unfold retire retires
  congr 1
  refine Array.ext (by simp) fun j hj _ => ?_
  have hne : (⟨j⟩ : Id) ≠ l.outputId := ne_outputId (by simpa using hj)
  simp [hne]

/-- The output is not among the values that quiet lanes share. -/
theorem value_of_quiet (h : l'.quiet = l.quiet) {id : Id}
    (hid : l'.output = l.output ∨ id ≠ l.outputId) : l'.value? id = l.value? id := by
  have hcells := eq_of_quiet cells h fun _ => rfl
  have hinput := eq_of_quiet input h fun _ => rfl
  unfold value? inputId outputId
  rw [hcells, hinput]
  rcases hid with hid | hid
  · rw [hid]
  · have hid : id ≠ ⟨l.cells.size + 1⟩ := hid
    rw [if_neg hid, if_neg hid]

theorem phiSnapshot_of_quiet (h : l'.quiet = l.quiet) {a : FunctionAnalysis} {block : Nat}
    (hids : l'.output = l.output ∨ ∀ id ∈ a.phiReadsOf block, id.index < l.cells.size) :
    l'.phiSnapshot a block = l.phiSnapshot a block := by
  unfold phiSnapshot
  refine congrArg _ (List.filterMap_congr fun id hid => ?_)
  rw [value_of_quiet h (hids.imp_right fun hids => ne_outputId (hids id hid))]

/-- Quiet lanes jump to the same place with the same values for the phi nodes. -/
theorem quiet_jumpTo (h : l'.quiet = l.quiet) {a : FunctionAnalysis} {block : Nat} {l₁ : Lane}
    (hids : l'.output = l.output ∨ ∀ id ∈ a.phiReadsOf l.block, id.index < l.cells.size)
    (hl₁ : l.jumpTo a block = .ok l₁) :
    l'.jumpTo a block = .ok { l₁ with output := l'.output, accessed := l'.accessed } := by
  have hphi := phiSnapshot_of_quiet h hids
  obtain ⟨output, accessed, rfl⟩ := exists_of_quiet h
  obtain ⟨start, hstart, rfl⟩ := jumpTo_ok hl₁
  unfold jumpTo
  rw [hstart, hphi]

/-- Quiet lanes agree for an instruction that does not name the output, or if they have the same. -/
theorem Agrees.of_quiet {i : Instr} (h : l'.quiet = l.quiet)
    (hi : l'.output = l.output ∨ i.Within l.cells.size) : Agrees i l l' where
  stage := eq_of_quiet Lane.stage h fun _ => rfl
  function := eq_of_quiet Lane.function h fun _ => rfl
  instr := eq_of_quiet Lane.instr h fun _ => rfl
  previousBlock := eq_of_quiet Lane.previousBlock h fun _ => rfl
  size := congrArg Array.size (eq_of_quiet cells h fun _ => rfl)
  input := eq_of_quiet Lane.input h fun _ => rfl
  memory := eq_of_quiet Lane.memory h fun _ => rfl
  phiValues := eq_of_quiet Lane.phiValues h fun _ => rfl
  builtins := eq_of_quiet Lane.builtins h fun _ => rfl
  references := eq_of_quiet Lane.references h fun _ => rfl
  properties := eq_of_quiet Lane.properties h fun _ => rfl
  value _ hid := value_of_quiet h (hi.imp_right fun hi => ne_outputId (hi.args hid))

theorem Resembles.of_quiet {i : Instr} (h : l'.quiet = l.quiet)
    (hi : l'.output = l.output ∨ i.Within l.cells.size) : Resembles i l l' where
  isFinished := eq_of_quiet Lane.isFinished h fun _ => rfl
  position := eq_of_quiet Lane.position h fun _ => rfl
  operand _ ho := (Agrees.of_quiet h hi).operand ho true

end Lane

/-! ## Steps without a report -/

namespace Step

variable {shown hidden : Prop} {n : Nat} {i : Instr} {s s' : Setting}

/-- Two machines differ at most in what a lane only has when it reports. If it is shown, the lanes have
    the same output; if it is hidden, no pointer leads to it. -/
structure Quietly (shown hidden : Prop) (n : Nat) (m m' : Machine) : Prop where
  lane : m'.lane.quiet = m.lane.quiet
  world : m'.world = m.world
  size : m.lane.cells.size = n
  output : shown → m'.lane.output = m.lane.output
  own : hidden → m.lane.memory.Within n
  shared : hidden → m.world.memory.Within n

/-- Two settings differ at most in what is reported, and in the second nothing is. If the output is
    hidden, the instruction does not name it. -/
structure Silences (shown hidden : Prop) (n : Nat) (i : Instr) (s s' : Setting) : Prop where
  recording : s'.recording = false
  program : s'.program = s.program
  bindings : s'.bindings = s.bindings
  analyses : s'.analyses = s.analyses
  host : s'.host = s.host
  either : shown ∨ hidden
  within : hidden → i.Within n
  group : List.Forall₂ (fun l l' => l'.quiet = l.quiet ∧
    (l'.output = l.output ∨ i.Within l.cells.size)) s.group s'.group

namespace Quietly

/-- What is reported does not count. -/
theorem reported {m m' : Machine} (h : Quietly shown hidden n m m') (events events' : Events)
    (changes changes' : Array Change) :
    Quietly shown hidden n { m with events, changes } { m' with events := events', changes := changes' } :=
  ⟨h.lane, h.world, h.size, h.output, h.own, h.shared⟩

theorem sees {m m' : Machine} (h : Quietly shown hidden n m m') {P : Prop} (heither : shown ∨ P) :
    m'.lane.output = m.lane.output ∨ P :=
  heither.imp_left h.output

theorem modifyLane {f : Lane → Lane} (hquiet : ∀ l, (f l.quiet).quiet = (f l).quiet)
    (hsize : ∀ l, (f l).cells.size = l.cells.size)
    (houtput : ∀ {l l'}, l'.quiet = l.quiet → l'.output = l.output → (f l').output = (f l).output)
    (hown : hidden → ∀ l, l.memory.Within n → (f l).memory.Within n) :
    Sim (Quietly shown hidden n) Eq (Step.modifyLane f) (Step.modifyLane f) := by
  refine .modifyLane fun hR => ⟨?_, hR.world, (hsize _).trans hR.size, ?_, ?_, hR.shared⟩
  · rw [← hquiet, hR.lane, hquiet]
  · exact fun hs => houtput hR.lane (hR.output hs)
  · exact fun hs => hown hs _ (hR.own hs)

theorem onWorld {α : Type} {f : World → α × World} (hf : ∀ w, (f w).2.memory = w.memory) :
    Sim (Quietly shown hidden n) Eq (Step.onWorld f) (Step.onWorld f) := by
  constructor
  intro m m' a m₁ hR hok
  cases hok
  refine ⟨_, _, rfl, ?_, hR.lane, ?_, hR.size, hR.output, hR.own, ?_⟩
  · rw [hR.world]
  · rw [hR.world]
  · exact fun hs => (hf m.world).symm ▸ hR.shared hs

/-- Only the reporting lane keeps track of the resources that it has used. -/
theorem noteUse (h : Silences shown hidden n i s s') (name : String) (ref : ResourceRef) :
    Sim (Quietly shown hidden n) Eq (Step.noteUse s name ref) (Step.noteUse s' name ref) := by
  have hquiet : Step.noteUse s' name ref = pure () := by
    unfold Step.noteUse
    rw [h.recording]
    rfl
  constructor
  intro m m' a m₁ hR hok
  rw [hquiet]
  refine ⟨(), m', rfl, rfl, ?_⟩
  unfold Step.noteUse at hok
  dsimp only at hok
  split at hok
  · obtain ⟨l, m₂, hlane, hok⟩ := ok_of_on_bind hok
    cases hlane
    split at hok
    · cases hok
      exact hR.reported ..
    · cases hok
      exact ⟨hR.lane, hR.world, hR.size, hR.output, hR.own, hR.shared⟩
  · cases hok
    exact hR

theorem writeThrough (p : Pointer) (bytes : Bytes) :
    Sim (Quietly shown hidden n) Eq (Step.writeThrough p bytes) (Step.writeThrough p bytes) := by
  unfold Step.writeThrough
  refine .ofLane fun {m m'} hR => ?_
  rw [Lane.eq_of_quiet (·.memory.hasAllocation p.base) hR.lane fun _ => rfl]
  refine .ite (fun _ => ?_) fun _ => ?_
  · refine .ofLane fun {m m'} hR => ?_
    rw [Lane.eq_of_quiet Lane.memory hR.lane fun _ => rfl]
    refine .compute fun memory hmemory => ?_
    refine Quietly.modifyLane (fun _ => rfl) (fun _ => rfl) (fun _ h => h) ?_
    exact fun hs _ _ => (hR.own hs).write hmemory
  · refine .ofShared fun {m m'} hR => ?_
    rw [hR.world]
    refine .compute fun memory hmemory => .modifyWorld fun {k k'} hk => ?_
    have hworld : { k'.world with memory } = { k.world with memory } := by rw [hk.world]
    exact ⟨hk.lane, hworld, hk.size, hk.output, hk.own, fun hs => (hR.shared hs).write hmemory⟩

theorem overwrite (id : Id) (v : Variable) :
    Sim (Quietly shown hidden n) Eq (Step.overwrite id v) (Step.overwrite id v) := by
  unfold Step.overwrite
  refine .ofLane fun {m m'} hR => ?_
  rw [Lane.eq_of_quiet (·.hasPlace id) hR.lane fun _ => rfl]
  refine .ite (fun _ => .next (.note fun hR => hR.reported ..) fun _ => ?_) fun _ => .pure rfl
  exact Quietly.modifyLane (fun l => l.quiet_assign_quiet id v) (fun l => l.size_assign id v)
    (fun h => Lane.output_assign h id v) fun _ l h => by rwa [l.memory_assign]

end Quietly

/-- The output is assigned where that is reported, and nothing happens where it is not. -/
def Silenced (n : Nat) (e e' : Effect) : Prop :=
  e' = e ∨ ∃ v, e = .value ⟨n + 1⟩ v ∧ e' = .proceed

/-- The output is stored where that is reported only. -/
theorem silenced_storeOutput {l l' : Lane} (hl : l.Agrees i l') (hsize : l.cells.size = n)
    {recording : Bool} {e : Effect} (he : l.storeOutput i recording = .ok e) :
    ∃ e', l'.storeOutput i false = .ok e' ∧ Silenced n e e' := by
  unfold Lane.storeOutput at he ⊢
  obtain ⟨element, helement, he⟩ := ok_of_bind he
  obtain ⟨row, hrow, he⟩ := ok_of_bind he
  obtain ⟨column, hcolumn, he⟩ := ok_of_bind he
  obtain ⟨v, hv, he⟩ := ok_of_bind he
  refine ⟨.proceed, ?_, ?_⟩
  · rw [hl.argNat, hl.argNat, hl.argNat, hl.arg, helement, hrow, hcolumn, hv]
    rfl
  · cases recording with
    | false =>
        cases he
        exact .inl rfl
    | true =>
        obtain ⟨_, -, he⟩ := ok_of_bind he
        cases he
        exact .inr ⟨_, by rw [Lane.outputId, hsize], rfl⟩

theorem Silences.mirror (h : Silences shown hidden n i s s') :
    Mirror (Quietly shown hidden n) (Silenced n) (fun p => hidden → p.base.index < n) s s' i where
  program := h.program
  bindings := h.bindings
  agrees hR := .of_quiet hR.lane (hR.sees (h.either.imp_right fun hs => hR.size ▸ h.within hs))
  memory hR := congrArg World.memory hR.world
  group _ _ _ _ hR := by
    have hindex := Lane.eq_of_quiet Lane.index hR.lane fun _ => rfl
    refine ⟨hindex, ?_⟩
    unfold Setting.groupWith
    rw [hindex]
    refine forall₂_set (h.group.imp fun l l' ⟨hl, hi⟩ => .of_quiet hl hi) _ ?_
    exact .of_quiet hR.lane (hR.sees (h.either.imp_right fun hs => hR.size ▸ h.within hs))
  pointer hR _ hp hs := (hR.own hs).resolve (hR.shared hs) hp
  base hR hp := Lane.value_of_quiet hR.lane
    (hR.sees (h.either.imp_right fun hs => Lane.ne_outputId (hR.size ▸ hp hs)))
  ask r := by
    unfold Step.ask
    rw [h.host]
    exact Quietly.onWorld fun _ => rfl
  srv slot := by
    unfold Step.srv
    rw [h.host]
    exact Quietly.onWorld fun w => w.memory_srv ..
  uav slot := by
    unfold Step.uav
    rw [h.host]
    exact Quietly.onWorld fun w => w.memory_uav ..
  setUav _ _ slot snapshot := .modifyWorld fun hR =>
    ⟨hR.lane, congrArg (·.setUav slot snapshot) hR.world, hR.size, hR.output, hR.own, hR.shared⟩
  raise e := .raise fun hR => hR.reported ..
  noteUse _ _ name ref := Quietly.noteUse h name ref
  refer id ref := Quietly.modifyLane (fun _ => rfl) (fun _ => rfl) (fun _ h => h) fun _ _ h => h
  describe id properties :=
    Quietly.modifyLane (fun _ => rfl) (fun _ => rfl) (fun _ h => h) fun _ _ h => h
  allocate _ hid pointee := Quietly.modifyLane (fun _ => rfl) (fun _ => rfl) (fun _ h => h)
    fun hs _ hl => hl.allocate ((h.within hs).result hid) pointee false
  addPointer _ hid hp hbase := Quietly.modifyLane (fun _ => rfl) (fun _ => rfl) (fun _ h => h)
    fun hs _ hl => hl.addPointer _ (hbase ▸ hp hs)
  write _ _ bytes := Quietly.writeThrough ..
  overwrite _ _ _ _ _ _ _ := Quietly.overwrite ..
  proceed _ := .inl rfl
  gives _ _ _ := .inl rfl
  loaded _ _ _ _ _ _ _ := .inl rfl
  silent _ _ _ _ _ _ := .inl rfl
  stored _ _ _ _ _ _ _ := .inl rfl
  output _ m m' hR e he := by
    have hl := Lane.Agrees.of_quiet hR.lane (hR.sees (h.either.imp_right fun hs => hR.size ▸ h.within hs))
    rw [h.recording]
    exact silenced_storeOutput hl hR.size he

/-! ## Outcomes -/

namespace Quietly

theorem retire (a : FunctionAnalysis) (keep : Option Id) :
    Sim (Quietly shown hidden n) Eq (Step.retire a keep) (Step.retire a keep) := by
  constructor
  intro m m' _ m₁ hR hok
  cases (on_retire a keep m).symm.trans hok
  refine ⟨(), _, on_retire a keep m', rfl, ?_⟩
  exact ⟨Lane.quiet_retire hR.lane a keep, hR.world, Array.size_mapIdx.trans hR.size, hR.output, hR.own,
    hR.shared⟩

theorem assign (i : Instr) (id : Id) (v : Variable) (report : Bool) :
    Sim (Quietly shown hidden n) Eq (Step.assign i id v report) (Step.assign i id v report) := by
  have hannounce : ∀ v, Sim (Quietly shown hidden n) Eq (announce id v) (announce id v) := by
    intro v
    have hnote : Sim (Quietly shown hidden n) Eq
        (do Step.note ((← Step.lane).assignment id v)) (do Step.note ((← Step.lane).assignment id v)) :=
      .ofLane fun _ => .note fun hR => hR.reported ..
    unfold announce
    exact .ite (fun _ => .next (.raise fun hR => hR.reported ..) fun _ => hnote) fun _ => hnote
  unfold Step.assign
  refine .ofLane fun {m m'} hR => ?_
  rw [Lane.eq_of_quiet (·.hasPlace id) hR.lane fun _ => rfl]
  refine .guard fun _ => ?_
  have hassign : ∀ v, Sim (Quietly shown hidden n) Eq
      (Step.modifyLane fun l => (l.assign id v).bringIntoScope id)
      (Step.modifyLane fun l => (l.assign id v).bringIntoScope id) := by
    intro v
    refine Quietly.modifyLane (fun l => ?_) (fun l => ?_) (fun h => Lane.output_assign h id v) ?_
    · exact Lane.quiet_bringIntoScope (l.quiet_assign_quiet id v) id
    · exact Array.size_modify.trans (l.size_assign id v)
    · intro _ l hl
      exact l.memory_assign id v ▸ hl
  exact .ite (fun _ => .next (hannounce _) fun _ => hassign _) fun _ => hassign _

theorem jump (a : FunctionAnalysis) (i : Instr) (block : Nat)
    (hreads : shown ∨ ∀ origin, ∀ id ∈ a.phiReadsOf origin, id.index < n) :
    Sim (Quietly shown hidden n) Eq (Step.conclude a i (.jump block))
      (Step.conclude a i (.jump block)) := by
  unfold Step.conclude
  refine .ofLane fun {m m'} hR => ?_
  have hids : m'.lane.output = m.lane.output ∨
      ∀ id ∈ a.phiReadsOf m.lane.block, id.index < m.lane.cells.size :=
    hR.sees (hreads.imp_right fun h => hR.size ▸ h m.lane.block)
  refine .bind (S := fun l l' => l' = { l with output := m'.lane.output, accessed := m'.lane.accessed } ∧
    l.cells = m.lane.cells ∧ l.output = m.lane.output ∧ l.memory = m.lane.memory)
    (.lift fun l hl => ⟨_, Lane.quiet_jumpTo hR.lane hids hl, rfl, ?_⟩) ?_
  · obtain ⟨_, -, rfl⟩ := Lane.jumpTo_ok hl
    exact ⟨rfl, rfl, rfl⟩
  · rintro l _ ⟨rfl, hcells, houtput, hmemory⟩
    refine .next (.modifyLane fun hk => ⟨rfl, hk.world, ?_, ?_, ?_, hk.shared⟩) fun _ =>
      Quietly.retire a none
    · exact (congrArg Array.size hcells).trans hR.size
    · exact fun hs => (hR.output hs).trans houtput.symm
    · exact fun hs => hmemory.symm ▸ hR.own hs

theorem advanced {m m' : Machine} (h : Quietly shown hidden n m m') :
    Quietly shown hidden n { m with lane := m.lane.advanced } { m' with lane := m'.lane.advanced } :=
  ⟨show m'.lane.quiet.advanced = m.lane.quiet.advanced from h.lane ▸ rfl, h.world, h.size, h.output,
    h.own, h.shared⟩

theorem weaken {m m' : Machine} (h : Quietly shown hidden n m m') : Quietly False hidden n m m' :=
  ⟨h.lane, h.world, h.size, False.elim, h.own, h.shared⟩

/-- Where the outcome is the output, the lanes do not have the same output any more. -/
theorem conclude {m m' m₁ : Machine} (hR : Quietly shown hidden n m m') (a : FunctionAnalysis)
    (i : Instr) {o o' : Outcome}
    (hreads : shown ∨ ∀ origin, ∀ id ∈ a.phiReadsOf origin, id.index < n)
    (ho : Outcomes (Silenced n) i o o')
    (hok : (Step.conclude a i o).on m = (.ok (), m₁)) :
    ∃ m₁', (Step.conclude a i o').on m' = (.ok (), m₁') ∧ Quietly False hidden n m₁ m₁' := by
  have hsame : ∀ {x : Step Unit}, Sim (Quietly shown hidden n) Eq x x → x.on m = (.ok (), m₁) →
      ∃ m₁', x.on m' = (.ok (), m₁') ∧ Quietly False hidden n m₁ m₁' := by
    intro x hx hok
    obtain ⟨_, m₁', hok', -, hR'⟩ := hx.ok hR hok
    exact ⟨m₁', hok', hR'.weaken⟩
  have heffect : ∀ e, Sim (Quietly shown hidden n) Eq (apply a i e) (apply a i e) := by
    intro e
    cases e with
    | proceed => exact Quietly.retire a none
    | assign id v report =>
        exact .next (Quietly.retire a (some id)) fun _ => Quietly.assign i id v report
    | kill =>
        exact Quietly.modifyLane (f := fun l => { l with isKilled := true }) (fun _ => rfl)
          (fun _ => rfl) (fun _ h => h) fun _ _ h => h
  cases ho with
  | terminate hi ho =>
      rcases ho with ⟨b, -, rfl⟩ | rfl | rfl
      · exact hsame (Quietly.jump a i b hreads) hok
      · refine hsame ?_ hok
        exact Quietly.modifyLane (f := fun l => { l with isEnded := true }) (fun _ => rfl)
          (fun _ => rfl) (fun _ h => h) fun _ _ h => h
      · exact hsame (heffect .kill) hok
  | effect hi he =>
      rcases he with rfl | ⟨v, rfl, rfl⟩
      · exact hsame (heffect _) hok
      · obtain ⟨_, m₂, hretire, hassign⟩ := ok_of_on_bind hok
        cases (on_retire ..).symm.trans hretire
        obtain ⟨-, events, rfl⟩ := assign_ok hassign
        have hlane : ((m.lane.retire a (some ⟨n + 1⟩)).assign ⟨n + 1⟩ (i.assigned v)).bringIntoScope
            ⟨n + 1⟩ = { m.lane.retire a none with output := i.assigned v } := by
          have hid : (⟨n + 1⟩ : Id) = m.lane.outputId := by rw [← hR.size, Lane.outputId]
          have hretired : m.lane.outputId = (m.lane.retire a none).outputId := by
            simp [Lane.outputId, Lane.retire]
          rw [hid, Lane.retire_outputId, hretired]
          exact Lane.bringIntoScope_assign_outputId ..
        refine ⟨_, on_retire a none m', ?_, hR.world, ?_, False.elim, ?_, hR.shared⟩
        · show (m'.lane.retire a none).quiet = (Lane.quiet _)
          rw [hlane, Lane.quiet_retire hR.lane a none]
          rfl
        · rw [hlane]
          exact Array.size_mapIdx.trans hR.size
        · rw [hlane]
          exact hR.own

end Quietly

end Step

/-! ## Steps -/

/-- What a step leaves of a machine, without the report. -/
def Stepped.machine (done : Stepped) : Machine := { lane := done.lane, world := done.world }

namespace Lane

open Step

variable {shown hidden : Prop} {n : Nat} {l l' : Lane} {s s' : Setting} {w w' : World}
  {state : StepState}

/-- A step that succeeds also succeeds where it is not reported, and does the same. -/
theorem quiet_of_step (hR : Quietly shown hidden n { lane := l, world := w } { lane := l', world := w' })
    (hprogram : s'.program = s.program) (hanalyses : s'.analyses = s.analyses)
    (hs : ∀ a i, l.nextInstr s.program s.analyses = .ok (a, i) →
      (i.isNop ∨ Silences shown hidden n i s s') ∧
        (shown ∨ ∀ origin, ∀ id ∈ a.phiReadsOf origin, id.index < n))
    (h : (l.step s w).result = .ok state) :
    (∃ state', (l'.step s' w').result = .ok state') ∧
      Quietly False hidden n (l.step s w).machine (l'.step s' w').machine := by
  have hfinished : l'.isFinished = l.isFinished := eq_of_quiet Lane.isFinished hR.lane fun _ => rfl
  by_cases hl : l.isFinished
  · unfold Lane.step at h ⊢
    rw [if_pos hl, if_pos (hfinished.trans hl)]
    exact ⟨⟨_, rfl⟩, hR.weaken⟩
  · obtain ⟨m, hm, hstep, -⟩ := execute_of_step hl h
    obtain ⟨a, i, o, m₁, hnext, ho, hm⟩ := execute_iff.1 hm
    obtain ⟨hi, hreads⟩ := hs a i hnext
    have hsim : Sim (Quietly shown hidden n) (Outcomes (Silenced n) i) (Step.instruction s i)
        (Step.instruction s' i) := by
      rcases hi with hnop | hsilences
      · exact .instruction_of_isNop (.inl rfl) hnop
      · exact hsilences.mirror.instruction
    obtain ⟨o', m₁', ho', houtcomes, hR₁⟩ := hsim.ok hR.advanced ho
    obtain ⟨m', hm', hR'⟩ := hR₁.conclude a i hreads houtcomes hm
    have hnext' : l'.nextInstr s'.program s'.analyses = .ok (a, i) := by
      rw [hprogram, hanalyses, ← hnext]
      exact eq_of_quiet (·.nextInstr s.program s.analyses) hR.lane fun _ => rfl
    have hstep' := step_of_execute (hfinished ▸ hl) (execute_iff.2 ⟨a, i, o', m₁', hnext', ho', hm'⟩)
    rw [hstep, hstep']
    exact ⟨⟨_, rfl⟩, hR'.lane, hR'.world, hR'.size, hR'.output, hR'.own, hR'.shared⟩

/-- The lane that reports does what it would do if it did not. -/
theorem quiet_of_recording (h : (l.step s w).result = .ok state) :
    (∃ state', (l.step { s with recording := false } w).result = .ok state') ∧
      (l.step { s with recording := false } w).world = (l.step s w).world ∧
      (l.step { s with recording := false } w).lane.quiet = (l.step s w).lane.quiet := by
  have hR : Quietly True False l.cells.size { lane := l, world := w } { lane := l, world := w } :=
    ⟨rfl, rfl, rfl, fun _ => rfl, False.elim, False.elim⟩
  have hs : ∀ i, Silences True False l.cells.size i s { s with recording := false } := by
    intro i
    refine ⟨rfl, rfl, rfl, rfl, rfl, .inl trivial, False.elim, ?_⟩
    exact List.forall₂_same.2 fun l _ => ⟨rfl, .inl rfl⟩
  obtain ⟨hok, hR'⟩ := quiet_of_step hR (hs default).program (hs default).analyses
    (fun a i _ => ⟨.inr (hs i), .inl trivial⟩) h
  exact ⟨hok, hR'.world, hR'.lane⟩

/-- Two lanes that may both report do the same, if nothing leads to their outputs. -/
theorem quiet_of_steps {state' : StepState}
    (hR : Quietly False True n { lane := l, world := w } { lane := l', world := w' })
    (hprogram : s'.program = s.program) (hbindings : s'.bindings = s.bindings)
    (hanalyses : s'.analyses = s.analyses) (hhost : s'.host = s.host)
    (hgroup : List.Forall₂ (fun l l' : Lane => l'.quiet = l.quiet ∧ l.cells.size = n) s.group s'.group)
    (hs : ∀ a i, l.nextInstr s.program s.analyses = .ok (a, i) →
      (i.isNop ∨ i.Within n) ∧ ∀ origin, ∀ id ∈ a.phiReadsOf origin, id.index < n)
    (h : (l.step s w).result = .ok state) (h' : (l'.step s' w').result = .ok state') :
    Quietly False True n (l.step s w).machine (l'.step s' w').machine := by
  have hsilences : ∀ i, i.Within n → Silences False True n i s { s' with recording := false } := by
    intro i hi
    refine ⟨rfl, hprogram, hbindings, hanalyses, hhost, .inr trivial, fun _ => hi, ?_⟩
    exact hgroup.imp fun l l' ⟨hl, hsize⟩ => ⟨hl, .inr (hsize ▸ hi)⟩
  have hsilent : ({ s' with recording := false } : Setting).program = s.program := hprogram
  obtain ⟨-, hR'⟩ := quiet_of_step hR hsilent hanalyses (fun a i hnext => by
    obtain ⟨hi, hphi⟩ := hs a i hnext
    exact ⟨hi.imp_right (hsilences i), .inr hphi⟩) h
  obtain ⟨-, hworld, hlane⟩ := quiet_of_recording h'
  exact ⟨hlane.symm.trans hR'.lane, hworld.symm.trans hR'.world, hR'.size, False.elim, hR'.own,
    hR'.shared⟩

/-! ## Refreshing and going on -/

theorem quiet_skipNops (h : l'.quiet = l.quiet) (p : Program) :
    (l'.skipNops p).quiet = (l.skipNops p).quiet := by
  obtain ⟨output, accessed, rfl⟩ := exists_of_quiet h
  have hfinished : { l with output, accessed }.isFinished = l.isFinished := rfl
  unfold skipNops
  rw [hfinished]
  split
  · rfl
  · rfl

/-- Only the output can be another value, and it is assigned in any case. -/
theorem quiet_refreshGlobals (h : l'.quiet = l.quiet) (memory : Memory) (gs : List GlobalVar) :
    (l'.refreshGlobals memory gs).1 = (l.refreshGlobals memory gs).1 ∧
      (l'.refreshGlobals memory gs).2.quiet = (l.refreshGlobals memory gs).2.quiet := by
  induction gs generalizing l l' with
  | nil => exact ⟨rfl, h⟩
  | cons g gs ih =>
      rw [refreshGlobals, refreshGlobals]
      by_cases hid : g.id = l.outputId
      · have hid' : g.id = l'.outputId := by
          rw [hid]
          exact eq_of_quiet outputId h.symm fun _ => rfl
        rw [show l.value? g.id = some l.output from hid ▸ l.value_outputId,
          show l'.value? g.id = some l'.output from hid' ▸ l'.value_outputId]
        dsimp only
        unfold Memory.reload
        cases memory.allocation? g.id with
        | none => exact ⟨rfl, h⟩
        | some allocation =>
            refine ih ?_
            rw [hid, assign_outputId, ← hid, hid', assign_outputId]
            exact h
      · rw [value_of_quiet h (.inr hid)]
        split
        · exact ih h
        · split
          · exact ⟨rfl, h⟩
          · exact ih (quiet_assign h _ _)

end Lane

end Lockstep
