import Lockstep.Proofs.Exec.Mirror
import Lockstep.Proofs.Lane.Run
import Lockstep.Proofs.Lane.Step
import Lockstep.Proofs.Memory

set_option autoImplicit false

/-! # Lanes that have nothing to do with each other

Where a program neither looks at other lanes nor writes to what lanes share, and the host answers a
request always alike, what all lanes share looks the same for ever, and the number of a lane does not
matter. A lane then takes the same steps whatever the others do in between (`Lane.apart_of_step`). -/

namespace Lockstep

/-! ## Programs that keep lanes apart -/

/-- The host's answers do not depend on the requests before. -/
structure Host.IsPure (host : Host) : Prop where
  answer : ∀ log log' r, host.answer log r = host.answer log' r

/-- An identifier holds a pointer of the shared memory, or one that is derived from such. -/
inductive Program.LeadsToShared (p : Program) (shared : Memory) : Id → Prop
  | shared {id : Id} (h : (shared.pointer? id).isSome) : LeadsToShared p shared id
  | element {f : Function} {i : Instr} {id source : Id} (hf : f ∈ p.functions) (hi : i ∈ f.instrs)
      (hop : i.op = .getElementPtr) (hid : i.result = some id) (hsource : i.argId 0 = .ok source)
      (h : LeadsToShared p shared source) : LeadsToShared p shared id

/-- An instruction does not look at other lanes and does not write to what lanes share. -/
structure Instr.Independent (i : Instr) (p : Program) (shared : Memory) : Prop where
  looks : ∀ {op}, i.intrinsic? = some op → ¬ op.looksAround ∧ ¬ op.writesResource
  writes : ∀ {id}, i.writesMemory → i.argId 0 = .ok id → ¬ p.LeadsToShared shared id

/-- All instructions of the program are independent of other lanes. -/
structure Program.Independent (p : Program) (shared : Memory) : Prop where
  instr : ∀ {f i}, f ∈ p.functions → i ∈ f.instrs → i.Independent p shared

/-- A program is independent if it writes through no pointers but those of some identifiers, and
    derives pointers that these hold from one another. -/
theorem Program.independent_of_local {p : Program} {shared : Memory} (isLocal : Id → Bool)
    (hshared : ∀ {id}, (shared.pointer? id).isSome → ¬ isLocal id)
    (hprogram : ∀ f ∈ p.functions, ∀ i ∈ f.instrs,
      (i.intrinsic?.all fun op => !op.looksAround && !op.writesResource) ∧
        (i.argId 0).toOption.all fun id =>
          (!i.writesMemory || isLocal id) &&
            (i.op != .getElementPtr || !i.result.any isLocal || isLocal id)) :
    p.Independent shared := by
  have hlocal : ∀ {id}, p.LeadsToShared shared id → ¬ isLocal id := by
    intro id h
    induction h with
    | shared h => exact hshared h
    | element hf hi hop hid hsource _ ih =>
        have hinstr := (hprogram _ hf _ hi).2
        rw [hsource, hop, hid] at hinstr
        simp_all [Except.toOption]
  refine ⟨fun hf hi => ⟨fun hop => ?_, fun hwrites hid hleads => hlocal hleads ?_⟩⟩
  · have hinstr := (hprogram _ hf _ hi).1
    rw [hop] at hinstr
    simpa using hinstr
  · have hinstr := (hprogram _ hf _ hi).2
    rw [hid] at hinstr
    simp_all [Except.toOption]

/-- Two worlds look the same to every lane: they have one memory and give the same snapshots. -/
structure World.Same (host : Host) (w w' : World) : Prop where
  memory : w'.memory = w.memory
  srv : ∀ slot, (w'.srv host slot).1 = (w.srv host slot).1
  uav : ∀ slot, (w'.uav host slot).1 = (w.uav host slot).1

/-- A pointer that does not lead to the shared memory leads to an allocation of the lane. -/
structure Memory.Private (m : Memory) (p : Program) (shared : Memory) : Prop where
  base : ∀ {id q}, m.pointer? id = some q → ¬ p.LeadsToShared shared id → m.hasAllocation q.base

namespace World

variable {host : Host} {w w' w'' : World}

theorem Same.refl (host : Host) (w : World) : Same host w w := ⟨rfl, fun _ => rfl, fun _ => rfl⟩

theorem Same.trans (h : Same host w w') (h' : Same host w' w'') : Same host w w'' :=
  ⟨h'.memory.trans h.memory, fun slot => (h'.srv slot).trans (h.srv slot),
    fun slot => (h'.uav slot).trans (h.uav slot)⟩

/-- What a slot holds, or what the host gives for it. -/
theorem srv_eq (hpure : host.IsPure) (w : World) (slot : Slot) :
    (w.srv host slot).1 = (w.srvs.get? slot).getD
      (Option.getD (host.answer #[] (.fetchSrv slot)) {}) := by
  unfold srv
  split
  · next s hs => rw [hs, Option.getD_some]
  · next hs =>
      rw [hs, Option.getD_none]
      exact congrArg (fun x : Option Snapshot => x.getD {}) (hpure.answer ..)

theorem uav_eq (hpure : host.IsPure) (w : World) (slot : Slot) :
    (w.uav host slot).1 = (w.uavs.get? slot).getD
      (Option.getD (host.answer #[] (.fetchUav slot)) {}) := by
  unfold uav
  split
  · next s hs => rw [hs, Option.getD_some]
  · next hs =>
      rw [hs, Option.getD_none]
      exact congrArg (fun x : Option Snapshot => x.getD {}) (hpure.answer ..)

theorem same_ask (hpure : host.IsPure) (w : World) (r : HostRequest) : Same host w (w.ask host r).2 := by
  refine ⟨rfl, fun slot => ?_, fun slot => ?_⟩
  · rw [srv_eq hpure, srv_eq hpure]
    rfl
  · rw [uav_eq hpure, uav_eq hpure]
    rfl

theorem same_srv (hpure : host.IsPure) (w : World) (slot : Slot) :
    Same host w (w.srv host slot).2 := by
  refine ⟨memory_srv .., fun slot' => ?_, fun slot' => ?_⟩
  · rw [srv_eq hpure, srv_eq hpure]
    unfold srv
    split
    · rfl
    · next hslot =>
        -- the snapshot that is kept is the one that any request gives
        have hanswer := hpure.answer w.log #[] (.fetchSrv slot)
        simp only [setSrv, ask, Table.get?_insert]
        split
        · next heq => rw [heq, hslot, hanswer, Option.getD_some, Option.getD_none]
        · rfl
  · rw [uav_eq hpure, uav_eq hpure]
    unfold srv
    split <;> rfl

theorem same_uav (hpure : host.IsPure) (w : World) (slot : Slot) :
    Same host w (w.uav host slot).2 := by
  refine ⟨memory_uav .., fun slot' => ?_, fun slot' => ?_⟩
  · rw [srv_eq hpure, srv_eq hpure]
    unfold uav
    split <;> rfl
  · rw [uav_eq hpure, uav_eq hpure]
    unfold uav
    split
    · rfl
    · next hslot =>
        have hanswer := hpure.answer w.log #[] (.fetchUav slot)
        simp only [setUav, ask, Table.get?_insert]
        split
        · next heq => rw [heq, hslot, hanswer, Option.getD_some, Option.getD_none]
        · rfl

end World

/-! ## Private memory -/

namespace Memory

namespace Private

variable {m m' : Memory} {p : Program} {shared : Memory}

theorem allocate (h : m.Private p shared) (id : Id) (pointee : Ty) (isGlobal : Bool) :
    (m.allocate id pointee isGlobal).Private p shared := by
  constructor
  intro id' q hq hlocal
  rw [hasAllocation_allocate]
  rw [pointer?_allocate] at hq
  split at hq
  · cases hq
    simp
  · simp [h.base hq hlocal]

theorem addPointer (h : m.Private p shared) {id : Id} {q : Pointer}
    (hq : ¬ p.LeadsToShared shared id → m.hasAllocation q.base) :
    (m.addPointer id q).Private p shared := by
  constructor
  intro id' q' hq' hlocal
  rw [pointer?_addPointer] at hq'
  split at hq'
  · next hid =>
      cases hq'
      exact hq (hid ▸ hlocal)
  · exact h.base hq' hlocal

theorem write (h : m.Private p shared) {q : Pointer} {bytes : Bytes}
    (hm' : m.write q bytes = .ok m') : m'.Private p shared := by
  obtain ⟨hpointers, hallocations, -⟩ := write_ok hm'
  constructor
  intro id q' hq' hlocal
  rw [hallocations]
  refine h.base ?_ hlocal
  rwa [pointer?, hpointers] at hq'

end Private

end Memory

/-! ## Steps of lanes with other numbers -/

/-- The lane under another number. -/
def Lane.renumbered (l : Lane) (k : Nat) : Lane := { l with index := k }

theorem Lane.assign_renumbered (l : Lane) (k : Nat) (id : Id) (v : Variable) :
    (l.renumbered k).assign id v = (l.assign id v).renumbered k := by
  unfold assign inputId outputId renumbered
  dsimp only
  split
  · rfl
  · split
    · rfl
    · split <;> rfl

theorem Lane.jumpTo_renumbered {l l' : Lane} {a : FunctionAnalysis} {block : Nat}
    (h : l.jumpTo a block = .ok l') (k : Nat) :
    (l.renumbered k).jumpTo a block = .ok (l'.renumbered k) ∧ l'.memory = l.memory := by
  obtain ⟨start, hstart, rfl⟩ := jumpTo_ok h
  unfold jumpTo
  rw [hstart]
  exact ⟨rfl, rfl⟩

theorem Lane.nextInstr_renumbered {l : Lane} {p : Program} {as : Analyses}
    {next : FunctionAnalysis × Instr} (h : l.nextInstr p as = .ok next) (k : Nat) :
    (l.renumbered k).nextInstr p as = .ok next := by
  obtain ⟨a, i⟩ := next
  obtain ⟨ha, f, hf, hi⟩ := nextInstr_eq_ok h
  unfold nextInstr renumbered
  rw [ha, hf]
  dsimp only
  rw [hi]

theorem Lane.skipNops_renumbered (l : Lane) (p : Program) (k : Nat) :
    (l.renumbered k).skipNops p = (l.skipNops p).renumbered k := by
  unfold skipNops
  rw [show (l.renumbered k).isFinished = l.isFinished from rfl]
  split <;> rfl

theorem Lane.bindGlobals_renumbered (l : Lane) (gs : List GlobalVar) (k : Nat) :
    (l.renumbered k).bindGlobals gs = ((l.bindGlobals gs).1.renumbered k, (l.bindGlobals gs).2) := by
  induction gs generalizing l with
  | nil => rfl
  | cons g gs ih =>
      rw [bindGlobals, bindGlobals, show (l.renumbered k).hasPlace g.id = l.hasPlace g.id from rfl,
        l.assign_renumbered, ih]
      split <;> rfl

theorem Lane.enter_renumbered {l l' : Lane} {p : Program} {b : Bindings} {as : Analyses}
    {liveGlobals : Array Bool} (h : l.enter p b as liveGlobals = (.ok (), l')) (k : Nat) :
    (l.renumbered k).enter p b as liveGlobals = (.ok (), l'.renumbered k) := by
  obtain ⟨a, l₁, ha, hl₁, rfl⟩ := eq_of_enter h
  have hl₁' := l.bindGlobals_renumbered b.globals k
  rw [hl₁] at hl₁'
  unfold enter enterFunction
  rw [hl₁', ha]
  dsimp only
  rw [← skipNops_renumbered]
  rfl

/-- What does not depend on the group is the same in two settings. -/
structure Setting.Alike (s s' : Setting) : Prop where
  program : s'.program = s.program
  bindings : s'.bindings = s.bindings
  analyses : s'.analyses = s.analyses
  host : s'.host = s.host
  recording : s'.recording = s.recording

namespace Step

/-- Two machines have one lane under different numbers, and worlds that look the same as one at first
    did. -/
structure Apart (s : Setting) (i : Instr) (l₀ : Lane) (w₀ : World) (k : Nat) (m n : Machine) :
    Prop where
  lane : n.lane = m.lane.renumbered k
  world : w₀.Same s.host m.world
  world' : w₀.Same s.host n.world
  own : m.lane.memory.Private s.program w₀.memory
  allocations : i.op ≠ .alloca → ∀ base, m.lane.memory.hasAllocation base = l₀.memory.hasAllocation base
  events : n.events = m.events
  changes : n.changes = m.changes

variable {s s' : Setting} {i : Instr} {l₀ : Lane} {w₀ : World} {k : Nat}

namespace Apart

theorem modifyLane {f : Lane → Lane} (hf : ∀ l, f (l.renumbered k) = (f l).renumbered k)
    (hown : ∀ l, l.memory.Private s.program w₀.memory → (f l).memory.Private s.program w₀.memory)
    (hallocations : i.op ≠ .alloca → ∀ l base,
      (f l).memory.hasAllocation base = l.memory.hasAllocation base) :
    Sim (Apart s i l₀ w₀ k) Eq (Step.modifyLane f) (Step.modifyLane f) :=
  .modifyLane fun hR =>
    { lane := by rw [hR.lane]; exact hf _
      world := hR.world
      world' := hR.world'
      own := hown _ hR.own
      allocations := fun hop base => (hallocations hop _ base).trans (hR.allocations hop base)
      events := hR.events
      changes := hR.changes }

/-- An action on what is shared that changes nothing that lanes see, and gives the same to all. -/
theorem onWorld {α : Type} {f g : World → α × World}
    (hsame : ∀ w, w₀.Same s.host w → w₀.Same s.host (f w).2 ∧ w₀.Same s.host (g w).2)
    (heq : ∀ w w', w₀.Same s.host w → w₀.Same s.host w' → (g w').1 = (f w).1) :
    Sim (Apart s i l₀ w₀ k) Eq (Step.onWorld f) (Step.onWorld g) := by
  constructor
  intro m n a m' hR hok
  cases hok
  refine ⟨_, _, rfl, (heq _ _ hR.world hR.world').symm, ?_⟩
  exact ⟨hR.lane, (hsame _ hR.world).1, (hsame _ hR.world').2, hR.own, hR.allocations, hR.events,
    hR.changes⟩

/-- What is reported is reported in both. -/
theorem note (c : Change) : Sim (Apart s i l₀ w₀ k) Eq (Step.note c) (Step.note c) :=
  .note fun hR => ⟨hR.lane, hR.world, hR.world', hR.own, hR.allocations, hR.events,
    congrArg (·.push c) hR.changes⟩

theorem raise (e : Events) : Sim (Apart s i l₀ w₀ k) Eq (Step.raise e) (Step.raise e) :=
  .raise fun hR => ⟨hR.lane, hR.world, hR.world', hR.own, hR.allocations,
    congrArg (·.union e) hR.events, hR.changes⟩

theorem noteUse (h : s.Alike s') (name : String) (ref : ResourceRef) :
    Sim (Apart s i l₀ w₀ k) Eq (Step.noteUse s name ref) (Step.noteUse s' name ref) := by
  unfold Step.noteUse
  rw [h.recording]
  refine .ite (fun _ => .ofLane fun hR => ?_) fun _ => .pure rfl
  rw [hR.lane]
  refine .ite (fun _ => Apart.note _) fun _ => .next ?_ fun _ => Apart.note _
  exact Apart.modifyLane (fun _ => rfl) (fun _ h => h) fun _ _ _ => rfl

/-- Nothing is written to the memory that is shared. -/
theorem writeThrough (hop : i.op ≠ .alloca) {q : Pointer} (hq : l₀.memory.hasAllocation q.base)
    (bytes : Bytes) :
    Sim (Apart s i l₀ w₀ k) Eq (Step.writeThrough q bytes) (Step.writeThrough q bytes) := by
  unfold Step.writeThrough
  refine .ofLane fun {m n} hR => ?_
  have hlocal : m.lane.memory.hasAllocation q.base := by rwa [hR.allocations hop]
  rw [hR.lane, if_pos hlocal, if_pos (show (m.lane.renumbered k).memory.hasAllocation q.base from hlocal)]
  refine .ofLane fun {m n} hR => ?_
  rw [hR.lane]
  refine .compute fun memory hmemory => ?_
  obtain ⟨-, hallocations, -⟩ := Memory.write_ok hmemory
  exact .modifyLane fun hk =>
    { lane := by rw [hk.lane]; rfl
      world := hk.world
      world' := hk.world'
      own := hR.own.write hmemory
      allocations := fun hop base => (hallocations base).trans (hR.allocations hop base)
      events := hk.events
      changes := hk.changes }

theorem overwrite (id : Id) (v : Variable) :
    Sim (Apart s i l₀ w₀ k) Eq (Step.overwrite id v) (Step.overwrite id v) := by
  unfold Step.overwrite
  refine .ofLane fun {m n} hR => ?_
  rw [hR.lane]
  refine .ite (fun _ => .next (Apart.note _) fun _ => ?_) fun _ => .pure rfl
  exact Apart.modifyLane (fun l => l.assign_renumbered k id v) (fun l h => by rwa [l.memory_assign])
    fun _ l base => by rw [l.memory_assign]

end Apart

/-- What an independent instruction reads and does has nothing to do with other lanes. -/
theorem mirror_of_independent (hs : s.Alike s') (hpure : s.host.IsPure)
    (hi : i.Independent s.program w₀.memory)
    (helement : ∀ {id source}, i.op = .getElementPtr → i.result = some id → i.argId 0 = .ok source →
      s.program.LeadsToShared w₀.memory source → s.program.LeadsToShared w₀.memory id) :
    Mirror (Apart s i l₀ w₀ k) Eq (fun q => ∃ source, i.argId 0 = .ok source ∧ (i.op ≠ .alloca →
      ¬ s.program.LeadsToShared w₀.memory source → l₀.memory.hasAllocation q.base)) s s' i where
  program := hs.program
  bindings := hs.bindings
  agrees hR := by
    rw [hR.lane]
    exact ⟨rfl, rfl, rfl, rfl, rfl, rfl, rfl, rfl, rfl, rfl, rfl, fun _ _ => rfl⟩
  memory hR := hR.world'.memory.trans hR.world.memory.symm
  group hop haround := absurd haround (hi.looks hop).1
  pointer {m n id q} hR hid hp := by
    refine ⟨_, hid, fun hop hlocal => ?_⟩
    unfold Lane.resolve at hp
    split at hp
    · next q' hq' =>
        cases hp
        rcases (Option.orElse_eq_some ..).1 hq' with hq' | ⟨-, hq'⟩
        · exact hR.allocations hop _ ▸ hR.own.base hq' hlocal
        · rw [hR.world.memory] at hq'
          exact absurd (.shared (hq' ▸ rfl)) hlocal
    · cases hp
  base hR _ := by
    rw [hR.lane]
    rfl
  ask r := by
    unfold Step.ask
    rw [hs.host]
    refine Apart.onWorld (fun w hw => ?_) fun w w' _ _ => hpure.answer ..
    exact ⟨hw.trans (World.same_ask hpure ..), hw.trans (World.same_ask hpure ..)⟩
  srv slot := by
    unfold Step.srv
    rw [hs.host]
    refine Apart.onWorld (fun w hw => ?_) fun w w' hw hw' => (hw'.srv slot).trans (hw.srv slot).symm
    exact ⟨hw.trans (World.same_srv hpure ..), hw.trans (World.same_srv hpure ..)⟩
  uav slot := by
    unfold Step.uav
    rw [hs.host]
    refine Apart.onWorld (fun w hw => ?_) fun w w' hw hw' => (hw'.uav slot).trans (hw.uav slot).symm
    exact ⟨hw.trans (World.same_uav hpure ..), hw.trans (World.same_uav hpure ..)⟩
  setUav hop hwrites := absurd hwrites (hi.looks hop).2
  raise e := Apart.raise e
  noteUse _ _ name ref := Apart.noteUse hs name ref
  refer id ref := Apart.modifyLane (fun _ => rfl) (fun _ h => h) fun _ _ _ => rfl
  describe id properties := Apart.modifyLane (fun _ => rfl) (fun _ h => h) fun _ _ _ => rfl
  allocate hop _ pointee :=
    Apart.modifyLane (fun _ => rfl) (fun _ h => h.allocate ..) fun hno => absurd hop hno
  addPointer {id q q'} hop hid hq hbase := by
    obtain ⟨source, hsource, hq⟩ := hq
    have hne : i.op ≠ .alloca := by
      rw [hop]
      decide
    refine .modifyLane fun {m n} hR => ⟨by rw [hR.lane]; rfl, hR.world, hR.world', ?_, hR.allocations,
      hR.events, hR.changes⟩
    refine hR.own.addPointer fun hlocal => ?_
    rw [hR.allocations hne, hbase]
    exact hq hne fun hshared => hlocal (helement hop hid hsource hshared)
  write {q} hwrites hq bytes := by
    obtain ⟨source, hsource, hq⟩ := hq
    have hne : i.op ≠ .alloca := by
      rintro hop
      rw [Instr.writesMemory, hop] at hwrites
      cases hwrites
    exact Apart.writeThrough hne (hq hne (hi.writes hwrites hsource)) bytes
  overwrite _ _ _ _ _ _ _ := Apart.overwrite ..
  proceed _ := rfl
  gives _ _ _ := rfl
  loaded _ _ _ _ _ _ _ := rfl
  silent _ _ _ _ _ _ := rfl
  stored _ _ _ _ _ _ _ := rfl
  output _ m m' hR e he := by
    rw [hR.lane, hs.recording]
    exact ⟨e, he, rfl⟩

namespace Apart

/-! ## Outcomes -/

theorem notes (ids : List Id) (c : Id → Change) :
    Sim (Apart s i l₀ w₀ k) Eq (ids.forM fun id => Step.note (c id)) (ids.forM fun id => Step.note (c id)) := by
  induction ids with
  | nil => exact .pure rfl
  | cons id ids ih => exact .next (Apart.note _) fun _ => ih

theorem retire (a : FunctionAnalysis) (keep : Option Id) :
    Sim (Apart s i l₀ w₀ k) Eq (Step.retire a keep) (Step.retire a keep) := by
  unfold Step.retire
  refine .ofLane fun {m n} hR => ?_
  rw [hR.lane]
  refine .next (notes _ _) fun _ => ?_
  exact Apart.modifyLane (fun _ => rfl) (fun _ h => h) fun _ _ _ => rfl

theorem assign (id : Id) (v : Variable) (report : Bool) :
    Sim (Apart s i l₀ w₀ k) Eq (Step.assign i id v report) (Step.assign i id v report) := by
  have hannounce : ∀ v, Sim (Apart s i l₀ w₀ k) Eq (announce id v) (announce id v) := by
    intro v
    have hnote : Sim (Apart s i l₀ w₀ k) Eq
        (do Step.note ((← Step.lane).assignment id v)) (do Step.note ((← Step.lane).assignment id v)) := by
      refine .ofLane fun hR => ?_
      rw [hR.lane]
      exact Apart.note _
    unfold announce
    exact .ite (fun _ => .next (Apart.raise _) fun _ => hnote) fun _ => hnote
  have hassign : ∀ v, Sim (Apart s i l₀ w₀ k) Eq
      (Step.modifyLane fun l => (l.assign id v).bringIntoScope id)
      (Step.modifyLane fun l => (l.assign id v).bringIntoScope id) := by
    intro v
    refine Apart.modifyLane (fun l => ?_) (fun l hl => ?_) fun _ l base => ?_
    · rw [l.assign_renumbered]
      rfl
    · exact l.memory_assign id v ▸ hl
    · exact congrArg (·.hasAllocation base) (l.memory_assign id v)
  unfold Step.assign
  refine .ofLane fun {m n} hR => ?_
  rw [hR.lane]
  refine .guard fun _ => ?_
  exact .ite (fun _ => .next (hannounce _) fun _ => hassign _) fun _ => hassign _

theorem conclude (a : FunctionAnalysis) (o : Outcome) :
    Sim (Apart s i l₀ w₀ k) Eq (Step.conclude a i o) (Step.conclude a i o) := by
  cases o with
  | effect e =>
      cases e with
      | proceed => exact Apart.retire a none
      | assign id v report => exact .next (Apart.retire a (some id)) fun _ => Apart.assign id v report
      | kill =>
          exact Apart.modifyLane (f := fun l => { l with isKilled := true }) (fun _ => rfl)
            (fun _ h => h) fun _ _ _ => rfl
  | jump block =>
      unfold Step.conclude
      refine .ofLane fun {m n} hR => ?_
      rw [hR.lane]
      refine .bind (S := fun l l' => l' = l.renumbered k ∧ l.memory = m.lane.memory)
        (.lift fun l hl => ?_) ?_
      · obtain ⟨hl', hmemory⟩ := Lane.jumpTo_renumbered hl k
        exact ⟨_, hl', rfl, hmemory⟩
      · rintro l _ ⟨rfl, hmemory⟩
        refine .next (.modifyLane fun hk => ?_) fun _ => Apart.retire a none
        exact ⟨rfl, hk.world, hk.world', hmemory ▸ hR.own, fun hop => hmemory ▸ hR.allocations hop,
          hk.events, hk.changes⟩
  | leave =>
      exact Apart.modifyLane (f := fun l => { l with isEnded := true }) (fun _ => rfl)
        (fun _ h => h) fun _ _ _ => rfl

end Apart

end Step

namespace Lane

open Step

/-- A step of a lane does the same under another number, in another group and in another world that
    looks the same. What all lanes share looks the same afterwards. -/
theorem apart_of_step {l : Lane} {s s' : Setting} {w₀ w w' : World} {k : Nat} {state : StepState}
    (hs : s.Alike s') (hpure : s.host.IsPure) (hind : s.program.Independent w₀.memory)
    (hw : w₀.Same s.host w) (hw' : w₀.Same s.host w') (hown : l.memory.Private s.program w₀.memory)
    (h : (l.step s w).result = .ok state) :
    ((l.renumbered k).step s' w').result = .ok state ∧
      ((l.renumbered k).step s' w').lane = (l.step s w).lane.renumbered k ∧
      w₀.Same s.host (l.step s w).world ∧ w₀.Same s.host ((l.renumbered k).step s' w').world ∧
      (l.step s w).lane.memory.Private s.program w₀.memory := by
  by_cases hl : l.isFinished
  · have hl' : (l.renumbered k).isFinished := hl
    unfold Lane.step at h ⊢
    rw [if_pos hl] at h ⊢
    rw [if_pos hl']
    exact ⟨h, rfl, hw, hw', hown⟩
  · obtain ⟨m, hm, hstep, rfl⟩ := execute_of_step hl h
    obtain ⟨a, i, o, m₁, hnext, ho, hm⟩ := execute_iff.1 hm
    obtain ⟨-, f, hf, hi⟩ := nextInstr_eq_ok hnext
    have hf := Array.mem_of_getElem? hf
    have hi := Array.mem_of_getElem? hi
    have hsim : Sim (Apart s i l.advanced w₀ k) (Outcomes Eq i) (Step.instruction s i)
        (Step.instruction s' i) :=
      (mirror_of_independent hs hpure (hind.instr hf hi) fun hop hid hsource hshared =>
        .element hf hi hop hid hsource hshared).instruction
    have hR : Apart s i l.advanced w₀ k { lane := l.advanced, world := w }
        { lane := (l.renumbered k).advanced, world := w' } :=
      ⟨rfl, hw, hw', hown, fun _ _ => rfl, rfl, rfl⟩
    obtain ⟨o', m₁', ho', houtcomes, hR₁⟩ := hsim.ok hR ho
    obtain rfl : o = o' := by
      cases houtcomes with
      | effect _ he => rw [he]
      | terminate => rfl
    obtain ⟨_, m', hm', -, hR'⟩ := (Apart.conclude a o).ok hR₁ hm
    have hnext' : (l.renumbered k).nextInstr s'.program s'.analyses = .ok (a, i) := by
      rw [hs.program, hs.analyses]
      exact nextInstr_renumbered hnext k
    have hstep' := step_of_execute (l := l.renumbered k) hl
      (execute_iff.2 ⟨a, i, o, m₁', hnext', ho', hm'⟩)
    rw [hstep, hstep']
    refine ⟨?_, hR'.lane, hR'.world, hR'.world', hR'.own⟩
    unfold Machine.state
    rw [hR'.lane, hR'.events, hR'.changes]
    rfl

end Lane

end Lockstep
