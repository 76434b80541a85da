import Lockstep.Proofs.Lane.Assign
import Lockstep.Proofs.Session.Rounds

set_option autoImplicit false

/-! # New handles

To make a handle of a declared resource always succeeds. The handle stands for the class and the slot that are asked
for, unless another variable was registered under the name of the declaration: then that is the handle, whatever
the index is (`Lane.handles_created`, `Lane.twoHandles_coincide`). -/

namespace Lockstep

/-- A handle of the class that refers to the slot. -/
def Variable.StandsFor (v : Variable) (cls : ResourceClass) (slot : Slot) : Prop :=
  ResourceClass.ofElem? v.elem = some cls ∧ v.slot = some slot

theorem Variable.standsFor_handle (name : String) (cls : ResourceClass) (slot : Slot) :
    (handle name cls.elem slot).StandsFor cls slot :=
  ⟨cls.ofElem?_elem, rfl⟩

theorem Slot.ofRegister_inj {register register' space : UInt32} :
    Slot.ofRegister register space = .ofRegister register' space ↔ register = register' :=
  ⟨congrArg Slot.register, fun h => h ▸ rfl⟩

theorem Step.on_createHandle {s : Setting} {i : Instr} {op : Intrinsic}
    (hop : op = .createHandle ∨ op = .createHandleFromBinding) (m : Machine) :
    (intrinsic s i op).on m = (m.lane.createHandle s i op, m) := by
  rcases hop with rfl | rfl <;> exact on_intrinsic_of_effect rfl rfl rfl rfl (on_lift ..)

namespace Lane

/-- The lane is about to make a handle of a class, for an index into a declared range. -/
structure Creates (l : Lane) (s : Setting) (i : Instr) (id : Id) (op : Intrinsic) (cls : ResourceClass)
    (decl : ResourceDecl) (index : UInt32) : Prop where
  about : l.AboutTo s.program s.analyses i id
  intrinsic : i.intrinsic? = some op
  creates : op = .createHandle ∨ op = .createHandleFromBinding
  number : ∃ number, l.argNat i 0 = .ok number ∧ ResourceClass.ofNumber? number = some cls
  declared : l.declared s.program i op cls = .ok (some decl, index)

variable {l : Lane} {s : Setting} {w : World} {i : Instr} {id : Id} {op : Intrinsic} {cls : ResourceClass}
  {decl : ResourceDecl} {index : UInt32}

/-- The variable that is registered under the name of the declaration is assigned, or else a new one. -/
theorem Creates.step (h : l.Creates s i id op cls decl index) :
    (∃ state, (l.step s w).result = .ok state) ∧ (l.step s w).world = w ∧
      (l.step s w).lane.value? = Function.update l.value? id (some ((s.bindings.resource? decl.name).getD
        (.handle (i.resultName id) cls.elem (.ofRegister index decl.space)))) := by
  obtain ⟨number, hnumber, hcls⟩ := h.number
  have hcreate : ∃ report, l.advanced.createHandle s i op = .ok (.assign id ((s.bindings.resource? decl.name).getD
      (.handle (i.resultName id) cls.elem (.ofRegister index decl.space))) report) := by
    unfold createHandle
    rw [Instr.resultId, h.about.result, show l.advanced.argNat i 0 = .ok number from hnumber]
    dsimp only [bind, Except.bind]
    rw [hcls]
    dsimp only
    rw [show l.advanced.declared s.program i op cls = .ok (some decl, index) from h.declared]
    dsimp only
    cases s.bindings.resource? decl.name with
    | none => exact ⟨true, rfl⟩
    | some registered => exact ⟨false, rfl⟩
  obtain ⟨report, hcreate⟩ := hcreate
  have hkeeps : op.isFlushing = false := by rcases h.creates with rfl | rfl <;> rfl
  have hon := Step.on_createHandle (s := s) (i := i) h.creates { lane := l.advanced, world := w }
  rw [hcreate] at hon
  exact step_of_intrinsic h.about.running h.about.next h.intrinsic hkeeps hon h.about.place

/-- To make a handle always gives a variable. It stands for the class and the slot that are asked for exactly if every
    variable that is registered under the name of the declaration does. So two handles of one declaration with
    different indices refer to one slot exactly if something is registered under its name. -/
theorem handles_created (h : l.Creates s i id op cls decl index) :
    (∃ state, (l.step s w).result = .ok state) ∧ (l.step s w).world = w ∧
      ∃ v : Variable, (l.step s w).lane.value? = Function.update l.value? id (some v) ∧
        (v.StandsFor cls (.ofRegister index decl.space) ↔
          ∀ registered, s.bindings.resource? decl.name = some registered →
            registered.StandsFor cls (.ofRegister index decl.space)) ∧
        ∀ {l' : Lane} {s' : Setting} {i' : Instr} {id' : Id} {op' : Intrinsic} {index' : UInt32} (w' : World),
          l'.Creates s' i' id' op' cls decl index' → s'.bindings = s.bindings → index ≠ index' →
            ∃ v', (l'.step s' w').lane.value? id' = some v' ∧
              (v.slot = v'.slot ↔ (s.bindings.resource? decl.name).isSome) := by
  obtain ⟨hok, hworld, hvalue⟩ := h.step (w := w)
  refine ⟨hok, hworld, _, hvalue, ?_, fun {l' s' i' id' op' index'} w' h' hbindings hne => ?_⟩
  · cases s.bindings.resource? decl.name with
    | none => exact ⟨nofun, fun _ => Variable.standsFor_handle ..⟩
    | some registered => exact ⟨fun hv _ hr => Option.some.inj hr ▸ hv, fun hr => hr _ rfl⟩
  · obtain ⟨-, -, hvalue'⟩ := h'.step (w := w')
    refine ⟨_, by rw [hvalue', Function.update_self], ?_⟩
    rw [hbindings]
    cases s.bindings.resource? decl.name with
    | none =>
        have hslots : Slot.ofRegister index decl.space ≠ .ofRegister index' decl.space :=
          fun heq => hne (Slot.ofRegister_inj.1 heq)
        exact ⟨fun heq => absurd (Option.some.inj heq) hslots, nofun⟩
    | some registered => exact ⟨fun _ => rfl, fun _ => rfl⟩

theorem declared_of_createHandle {p : Program} {range : UInt32} (hrange : l.argWord32 i 1 = .ok range)
    (hindex : l.argWord32 i 2 = .ok index) :
    l.declared p i .createHandle cls = .ok (p.resource? cls range, index) := by
  unfold declared
  rw [if_pos rfl, hrange, hindex]
  rfl

/-- Makes a handle of a register of the range. -/
def handleAt (id index : Nat) : Instr :=
  { op := .call, ty := .handle, result := some ⟨id⟩, callee := some (.intrinsic .createHandle),
    args := [.const (.int 32 0), .const (.int 32 0), .const (.int 32 index.toUInt64)] }

/-- A range of four registers. -/
def fourRegisters : ResourceDecl := { name := "buffers", cls := .srv, registerCount := 4, kind := .rawBuffer }

/-- Makes handles of the first two of four registers. -/
def twoHandles : Program :=
  { stage := .compute
    resources := [fourRegisters]
    functions := #[{ name := "twoHandles", blocks := #[{}], instrs := #[handleAt 0 0, handleAt 1 1, { op := .ret }] }]
    idCount := 2 }

set_option synthInstance.maxSize 512 in
/-- The handles refer to different registers if the host registers nothing. -/
theorem twoHandles_differ :
    ∃ (s₀ s s₁ : Session) (l l₁ : Lane) (v v₁ : Variable), Session.new twoHandles {} {} [{}] 0 {} = .ok s₀ ∧
      s₀.start.session = s ∧ s.lanes[0]? = some l ∧ s.advance .unbound 1 = .ok s₁ ∧ s₁.lanes[0]? = some l₁ ∧
      (l.step (s.setting .unbound 0) s.world).lane.value? ⟨0⟩ = some v ∧ v.StandsFor .srv (.ofRegister 0 0) ∧
      (l₁.step (s₁.setting .unbound 0) s₁.world).lane.value? ⟨1⟩ = some v₁ ∧ v.slot ≠ v₁.slot := by
  have h : ∃ s₀, Session.new twoHandles {} {} [{}] 0 {} = .ok s₀ ∧ ∃ states, s₀.start.result = .ok states ∧
      s₀.start.session.bindings.resource? "buffers" = none ∧ ∃ l, s₀.start.session.lanes[0]? = some l ∧
      ((¬ l.isFinished ∧ l.hasPlace ⟨0⟩) ∧ (s₀.start.session.analyses.of? l.function).isSome ∧
        l.function = 0 ∧ l.instr = 0 ∧ (∃ n, l.argNat (handleAt 0 0) 0 = .ok n ∧ n = 0) ∧
        (∃ range, l.argWord32 (handleAt 0 0) 1 = .ok range ∧ range = 0) ∧
        ∃ index, l.argWord32 (handleAt 0 0) 2 = .ok index ∧ index = 0) ∧
      ∃ s₁, s₀.start.session.advance .unbound 1 = .ok s₁ ∧ ∃ l, s₁.lanes[0]? = some l ∧
      ((¬ l.isFinished ∧ l.hasPlace ⟨1⟩) ∧ (s₁.analyses.of? l.function).isSome ∧
        l.function = 0 ∧ l.instr = 1 ∧ (∃ n, l.argNat (handleAt 1 1) 0 = .ok n ∧ n = 0) ∧
        (∃ range, l.argWord32 (handleAt 1 1) 1 = .ok range ∧ range = 0) ∧
        ∃ index, l.argWord32 (handleAt 1 1) 2 = .ok index ∧ index = 1) := by
    decide +kernel
  obtain ⟨s₀, hnew, states, hstart, hnone, l, hl, ⟨hready, hanalysis, hfunction, hinstr, ⟨_, hnumber, rfl⟩,
    ⟨_, hrange, rfl⟩, _, hindex, rfl⟩, s₁, hs₁, l₁, hl₁, hready₁, hanalysis₁, hfunction₁, hinstr₁, ⟨_, hnumber₁, rfl⟩,
    ⟨_, hrange₁, rfl⟩, _, hindex₁, rfl⟩ := h
  have hreached := Session.Reached.started hstart
  have hfresh := Session.fresh_of_new hnew
  have hprogram : s₀.start.session.program = twoHandles := hreached.program_eq.trans hfresh.program
  have hprogram₁ : s₁.program = twoHandles := (hreached.advance hs₁).program_eq.trans hfresh.program
  have hcreates :
      l.Creates (s₀.start.session.setting .unbound 0) (handleAt 0 0) ⟨0⟩ .createHandle .srv fourRegisters 0 := by
    refine ⟨.of_program hprogram hready hanalysis hfunction hinstr rfl rfl, rfl, .inl rfl, ⟨0, hnumber, rfl⟩, ?_⟩
    rw [declared_of_createHandle hrange hindex]
    show Except.ok (s₀.start.session.program.resource? .srv 0, _) = _
    rw [hprogram]
    rfl
  have hcreates₁ : l₁.Creates (s₁.setting .unbound 0) (handleAt 1 1) ⟨1⟩ .createHandle .srv fourRegisters 1 := by
    refine ⟨.of_program hprogram₁ hready₁ hanalysis₁ hfunction₁ hinstr₁ rfl rfl, rfl, .inl rfl, ⟨0, hnumber₁, rfl⟩, ?_⟩
    rw [declared_of_createHandle hrange₁ hindex₁]
    show Except.ok (s₁.program.resource? .srv 0, _) = _
    rw [hprogram₁]
    rfl
  have hbindings : s₁.bindings = s₀.start.session.bindings :=
    (hreached.advance hs₁).bindings_eq.trans hreached.bindings_eq.symm
  obtain ⟨-, -, v, hv, hstands, hapart⟩ := handles_created (w := s₀.start.session.world) hcreates
  obtain ⟨v₁, hv₁, hslots⟩ := hapart s₁.world hcreates₁ hbindings (by decide)
  have hregistered : ∀ r, s₀.start.session.bindings.resource? "buffers" ≠ some r := fun r hr => by
    rw [hnone] at hr
    cases hr
  refine ⟨s₀, _, s₁, l, l₁, v, v₁, hnew, rfl, hl, hs₁, hl₁, by rw [hv, Function.update_self],
    hstands.2 fun r hr => absurd hr (hregistered r), hv₁, fun heq => ?_⟩
  obtain ⟨r, hr⟩ := Option.isSome_iff_exists.1 (hslots.1 heq)
  exact hregistered r hr

set_option synthInstance.maxSize 512 in
/-- Both refer to the first register if the host has registered the range under its name: the handle of the second
    one, too. -/
theorem twoHandles_coincide :
    ∃ s₀, Session.new twoHandles (({} : Bindings).addReadOnly "buffers" (.ofRegister 0 0)) {} [{}] 0 {} = .ok s₀ ∧
      ∃ s, s₀.start.session.advance .unbound 1 = .ok s ∧ ∃ l, s.lanes[0]? = some l ∧
      (∃ next, l.nextInstr s.program s.analyses = .ok next ∧ next.2.intrinsic? = some .createHandle ∧
        ∃ x, l.declared s.program next.2 .createHandle .srv = .ok x ∧ (x.1.any (·.name = "buffers") ∧ x.2 = 1)) ∧
      (∃ v, l.value? ⟨0⟩ = some v ∧ v.slot = some (.ofRegister 0 0)) ∧
      ∃ v, (l.step (s.setting .unbound 0) s.world).lane.value? ⟨1⟩ = some v ∧ v.slot = some (.ofRegister 0 0) := by
  decide +kernel

end Lane

end Lockstep
