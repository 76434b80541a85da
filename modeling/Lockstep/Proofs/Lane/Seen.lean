import Lockstep.Proofs.Lane.Access

set_option autoImplicit false

/-! # What a load sees of the shared state

Carrying out an outcome does not look at what the lanes share (`Step.blind_conclude`), and a load from a buffer
looks at one snapshot only. From worlds in which it sees the same there, a lane takes the same step
(`Lane.step_of_loadFrom`). -/

namespace Lockstep

/-- The snapshot that a load through a reference sees. -/
def World.seen (host : Host) (w : World) (ref : ResourceRef) : Snapshot :=
  if ref.cls = .srv then (w.srv host ref.slot).1 else (w.uav host ref.slot).1

theorem World.seen_of_uav {host : Host} {w : World} {ref : ResourceRef} (h : ref.cls = .uav) :
    w.seen host ref = (w.uav host ref.slot).1 := if_neg (by rw [h]; decide)

namespace Step

/-! ## Computations that do not look at the shared state -/

/-- Whatever is shared, the computation does the same, and leaves what is shared. -/
def Blind {α : Type} (x : Step α) : Prop :=
  ∀ m w, x.on { m with world := w } = ((x.on m).1, { (x.on m).2 with world := w })

variable {α β : Type} {i : Instr}

theorem Blind.bind {x : Step α} {f : α → Step β} (hx : Blind x) (hf : ∀ a, Blind (f a)) :
    Blind (x >>= f) := by
  intro m w
  rw [on_bind, on_bind, hx m w]
  cases x.on m with
  | mk result m₁ =>
      cases result with
      | error fault => rfl
      | ok a => exact hf a m₁ w

theorem Blind.ite {c : Prop} [Decidable c] {x y : Step α} (hx : Blind x) (hy : Blind y) :
    Blind (if c then x else y) := by
  split
  · exact hx
  · exact hy

theorem blind_noteUse (s : Setting) (name : String) (ref : ResourceRef) : Blind (noteUse s name ref) := by
  have hnote : ∀ c, Blind (note c) := fun _ _ _ => rfl
  have hlane : ∀ f : Lane → Step Unit, (∀ l, Blind (f l)) → Blind (lane >>= f) := fun f hf m w => hf m.lane m w
  unfold noteUse
  refine .ite (hlane _ fun l => .ite (hnote _) (.bind (fun _ _ => rfl) fun _ => hnote _)) fun _ _ => rfl

theorem blind_retire (a : FunctionAnalysis) (keep : Option Id) : Blind (retire a keep) := by
  intro m w
  rw [on_retire, on_retire]

theorem blind_assign (id : Id) (v : Variable) (report : Bool) : Blind (assign i id v report) := by
  have hassign : ∀ v, Blind (modifyLane fun l => (l.assign id v).bringIntoScope id) := fun _ _ _ => rfl
  have hannounce : ∀ v, Blind (announce id v) := fun v m w => by rw [on_announce, on_announce]
  intro m w
  unfold assign
  show (if _ then _ else _ : Step Unit).on _ = _
  refine Blind.ite (x := throw _ >>= fun _ => _) (.bind (fun _ _ => rfl) fun _ => ?_) ?_ m w
  all_goals exact .ite (.bind (hannounce _) fun _ => hassign _) (hassign _)

theorem blind_conclude (a : FunctionAnalysis) (o : Outcome) : Blind (conclude a i o) := by
  cases o with
  | leave => exact fun _ _ => rfl
  | jump b =>
      intro m w
      refine Blind.bind (x := liftM (m.lane.jumpTo a b)) (fun _ _ => rfl) (fun l => ?_) m w
      exact .bind (fun _ _ => rfl) fun _ => blind_retire a none
  | effect e =>
      cases e with
      | proceed => exact blind_retire a none
      | kill => exact fun _ _ => rfl
      | assign id v report => exact .bind (blind_retire a (some id)) fun _ => blind_assign id v report

end Step

namespace Lane

variable {l : Lane} {s : Setting} {w : World} {i : Instr} {op : Intrinsic} {h : Handle}

/-- A lane takes the same step from two worlds if its instruction does the same to all but the world. -/
theorem step_of_on_instruction {s' : Setting} {w' w₁ : World} {a : FunctionAnalysis}
    {result : Except Fault Outcome} {m : Machine} (hfin : ¬ l.isFinished)
    (hnext : l.nextInstr s.program s.analyses = .ok (a, i))
    (hnext' : l.nextInstr s'.program s'.analyses = .ok (a, i))
    (h : (Step.instruction s i).on { lane := l.advanced, world := w } = (result, m))
    (h' : (Step.instruction s' i).on { lane := l.advanced, world := w' } = (result, { m with world := w₁ })) :
    (l.step s' w').result = (l.step s w).result ∧ (l.step s' w').lane = (l.step s w).lane := by
  have hexecute : ∀ {s : Setting} {w : World} {m : Machine},
      l.nextInstr s.program s.analyses = .ok (a, i) →
      (Step.instruction s i).on { lane := l.advanced, world := w } = (result, m) →
      (Step.execute s).on { lane := l, world := w } = match result with
        | .error fault => (.error fault, m)
        | .ok o => (Step.conclude a i o).on m := by
    intro s w m hnext h
    unfold Step.execute
    show ((liftM (l.nextInstr s.program s.analyses) >>= _ : Step Unit).on { lane := l, world := w }) = _
    rw [Step.on_bind, Step.on_lift, hnext]
    show (Step.instruction s i >>= Step.conclude a i).on { lane := l.advanced, world := w } = _
    rw [Step.on_bind, h]
    cases result <;> rfl
  unfold step
  rw [if_neg hfin, if_neg hfin, hexecute hnext h, hexecute hnext' h']
  cases result with
  | error fault => exact ⟨rfl, rfl⟩
  | ok o =>
      dsimp only
      rw [Step.blind_conclude a o m w₁]
      cases (Step.conclude a i o).on m with
      | mk result m' => cases result <;> exact ⟨rfl, rfl⟩

end Lane

namespace Step

variable {s : Setting} {m : Machine} {i : Instr} {op : Intrinsic} {h : Handle}

theorem on_loadSource (i : Instr) (op : Intrinsic) (hcls : h.ref.cls = .srv ∨ h.ref.cls = .uav)
    (htexture : (m.world.seen s.host h.ref).isTexture = false) : ∃ w, (loadSource s i op h.ref).on m =
      ((m.lane.address i op.addressArg false).map fun address => (m.world.seen s.host h.ref, address),
        { m with world := w }) := by
  unfold loadSource
  unfold World.seen at htexture ⊢
  rcases hcls with hcls | hcls
  · rw [hcls, if_pos rfl]
    show ∃ w, (liftM (m.lane.address i op.addressArg false) >>= _ : Step _).on m = _
    rw [on_bind, on_lift]
    cases m.lane.address i op.addressArg false with
    | error fault => exact ⟨m.world, rfl⟩
    | ok address => exact ⟨_, rfl⟩
  · rw [hcls, if_neg (by decide)] at htexture ⊢
    refine ⟨(m.world.uav s.host h.ref.slot).2, ?_⟩
    show (liftM (m.lane.address i op.addressArg (m.world.uav s.host h.ref.slot).1.isTexture) >>= _ :
      Step _).on { m with world := (m.world.uav s.host h.ref.slot).2 } = _
    rw [htexture, on_bind, on_lift]
    cases m.lane.address i op.addressArg false <;> rfl

/-- A load from a buffer gives what its function gives for the snapshot that it sees. -/
theorem on_loadElement (i : Instr) (op : Intrinsic) (hcls : h.ref.cls = .srv ∨ h.ref.cls = .uav)
    (htexture : (m.world.seen s.host h.ref).isTexture = false) :
    ∃ w, (loadElement s i op h).on m =
      ((m.lane.loadFrom i op h (m.world.seen s.host h.ref)).map Prod.fst, { m with world := w }) := by
  unfold loadElement Lane.loadFrom
  rw [htexture, on_bind, on_lift]
  cases i.resultId with
  | error fault => exact ⟨m.world, rfl⟩
  | ok id =>
      dsimp only
      rw [on_bind, on_lift]
      cases i.loadedTypes op with
      | error fault => exact ⟨m.world, rfl⟩
      | ok types =>
          obtain ⟨w, hsource⟩ := on_loadSource i op hcls htexture
          dsimp only
          rw [on_bind, hsource]
          cases m.lane.address i op.addressArg false with
          | error fault => exact ⟨w, rfl⟩
          | ok address =>
              refine ⟨w, ?_⟩
              dsimp only [Except.map, bind, Except.bind]
              cases Snapshot.load? _ _ <;> rfl

/-- The instruction of a load reports the use of the resource and gives what its function gives. -/
theorem on_instruction_of_load {id : Id} {v : Variable} (hop : i.intrinsic? = some op)
    (hload : op = .bufferLoad ∨ op = .rawBufferLoad) (hid : i.argId 0 = .ok id)
    (hhandle : m.lane.handle s.program id = .ok (v, h)) (hcls : h.ref.cls = .srv ∨ h.ref.cls = .uav)
    (htexture : (m.world.seen s.host h.ref).isTexture = false) : ∃ w, (instruction s i).on m =
      (((m.lane.loadFrom i op h (m.world.seen s.host h.ref)).map Prod.fst).map Outcome.effect,
        { noted s v.name h.ref m with world := w }) := by
  have hacc : op.accesses := by rcases hload with rfl | rfl <;> rfl
  obtain ⟨accessed, changes, hnoted⟩ := noted_eq s v.name h.ref m
  have htexture' : ¬ (op = .textureLoad ∧ h.ref.cls = .srv) := by rcases hload with rfl | rfl <;> simp
  have helement : element s i op h = loadElement s i op h := by rcases hload with rfl | rfl <;> rfl
  obtain ⟨w, hw⟩ := on_loadElement (s := s) (m := noted s v.name h.ref m) i op hcls (by rw [hnoted]; exact htexture)
  refine ⟨w, ?_⟩
  rw [on_instruction_of_accesses hop hacc, on_onHandle hacc hid hhandle htexture', helement, hw, hnoted]
  rfl

end Step

/-- A lane takes the same step from two worlds, whatever the hosts, if its load gives the same in both. -/
theorem Lane.step_of_loadFrom {l : Lane} {s : Setting} {host : Host} {w w' : World} {i : Instr} {op : Intrinsic}
    {h : Handle} (hnext : l.nextAccess? s.program s.analyses = some (i, op, h))
    (hload : op = .bufferLoad ∨ op = .rawBufferLoad) (hcls : h.ref.cls = .srv ∨ h.ref.cls = .uav)
    (htexture : (w.seen s.host h.ref).isTexture = false) (htexture' : (w'.seen host h.ref).isTexture = false)
    (heq : (l.loadFrom i op h (w'.seen host h.ref)).map Prod.fst =
      (l.loadFrom i op h (w.seen s.host h.ref)).map Prod.fst) :
    (l.step { s with host } w').result = (l.step s w).result ∧
      (l.step { s with host } w').lane = (l.step s w).lane := by
  obtain ⟨hfin, a, id, v, hinstr, hop, -, hid, hhandle⟩ := nextAccess?_eq_some_iff.1 hnext
  obtain ⟨w₁, hon⟩ := Step.on_instruction_of_load (m := { lane := l.advanced, world := w }) hop hload hid
    hhandle hcls htexture
  obtain ⟨w₁', hon'⟩ := Step.on_instruction_of_load (s := { s with host })
    (m := { lane := l.advanced, world := w' }) hop hload hid hhandle hcls htexture'
  have hnoted : Step.noted { s with host } v.name h.ref { lane := l.advanced, world := w' } =
      { Step.noted s v.name h.ref { lane := l.advanced, world := w } with world := w' } :=
    congrArg Prod.snd (Step.blind_noteUse s v.name h.ref { lane := l.advanced, world := w } w')
  have hresult : (l.advanced.loadFrom i op h (w'.seen host h.ref)).map Prod.fst =
      (l.advanced.loadFrom i op h (w.seen s.host h.ref)).map Prod.fst := heq
  rw [hnoted, hresult] at hon'
  exact step_of_on_instruction hfin hinstr hinstr hon hon'

end Lockstep
