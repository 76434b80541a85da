import Lockstep.Host.Unbound
import Lockstep.Proofs.Session.Canonical
import Lockstep.Proofs.Session.Lasting
import Lockstep.Proofs.Typing.Lane

set_option autoImplicit false

/-! # Values have the types of their instructions

In a session of a well-typed program, whatever its lanes have done, also within a round and after a
fault, the value of each result has the shape of the result's type, and its components fit their element
types (`Session.values_have_types`). -/

namespace Lockstep

variable {p : Program}

/-! ## Lanes -/

namespace Lane

variable {l l' : Lane} {w : World}

/-- Global variables that are read again keep their types, also those before one that is not found. -/
theorem HasTypes.refreshGlobals {memory : Memory} {gs : List GlobalVar} (h : l.HasTypes p) :
    (l.refreshGlobals memory gs).2.HasTypes p :=
  refreshGlobals_induction h fun _ hv _ h => h.assign ⟨fun hty => (h.value hty hv).ofBytes _⟩

theorem Typed.refreshGlobals (h : l.Typed p w) (gs : List GlobalVar) :
    (l.refreshGlobals w.memory gs).2.Typed p w :=
  ⟨h.values.refreshGlobals, memory_refreshGlobals l w.memory gs ▸ h.own, h.shared⟩

theorem Typed.skipNops (h : l.Typed p w) (q : Program) : (l.skipNops q).Typed p w :=
  ⟨h.values.congr (value_skipNops ..) (phiValues_skipNops ..), memory_skipNops l q ▸ h.own, h.shared⟩

end Lane

/-! ## Rounds -/

namespace Session

variable {s t : Session}

/-- The lanes of a session are typed. -/
structure Typed (p : Program) (s : Session) : Prop where
  program : s.program = p
  lane : ∀ {l}, l ∈ s.lanes → l.Typed p s.world

/-- In a well-typed program types last. -/
theorem lasting_typed (hp : p.UniqueIds) (hwell : p.WellTyped) (gs : List GlobalVar) :
    Lasting p gs fun l w => l.Typed p w where
  step hs h := h.step hp hwell hs
  others hs h h' := ⟨h'.values, h'.own, (h.step hp hwell hs).shared⟩
  refresh h := h.refreshGlobals gs
  skipNops h := h.skipNops p

namespace Typed

theorem all (h : s.Typed p) : s.All p s.bindings.globals fun l w => l.Typed p w := ⟨h.program, rfl, h.lane⟩

/-- The turns of lanes, up to one that fails. -/
theorem stepLanes (hp : p.UniqueIds) (hwell : p.WellTyped) (h : s.Typed p) (host : Host) (index : Nat)
    (mask : List Bool) :
    (s.stepLanes host index mask).session.Typed p := by
  have hall := h.all.stepLanes (lasting_typed hp hwell _) host index mask
  exact ⟨hall.program, hall.lane⟩

/-- A round, up to where it fails. -/
theorem round (hp : p.UniqueIds) (hwell : p.WellTyped) (h : s.Typed p) (host : Host) :
    (s.round host).session.Typed p := by
  have hall := h.all.round (lasting_typed hp hwell _) host
  exact ⟨hall.program, hall.lane⟩

end Typed

/-! ## Starting -/

section

variable {b : Bindings} {w : World} {inits : List LaneInit} {active : Nat} {config : Config}

/-- Pointers of results are none that a session is set up with. -/
theorem pointer_of_new {id : Id} (hp : p.UniqueIds) (hid : p.IsResult id)
    (hnew : Session.new p b w inits active config = .ok s) :
    s.world.memory.pointer? id = w.memory.pointer? id := by
  obtain ⟨-, analyses, bindings, live, world, -, hglobals, rfl⟩ := new_ok hnew
  refine ((declared_of_allocateGlobals hp.nodup_globals hglobals).others fun hmem => ?_).2
  obtain ⟨g, hg, heq⟩ := List.mem_map.1 hmem
  exact hp.apart hid ⟨g, hg, heq⟩

theorem typed_of_start {states : List StepState} (hp : p.UniqueIds) (hb : ∀ g ∈ b.globals, ¬ p.IsResult g.id)
    (hw : ∀ id, p.IsResult id → w.memory.pointer? id = none)
    (hnew : Session.new p b w inits active config = .ok s) (h : s.start.result = .ok states) :
    s.start.session.Typed p := by
  have hdeclares := declares_of_new hp hb hnew
  have hfresh := fresh_of_new hnew
  have hpointee : ∀ {g : GlobalDecl} {pointee : Ty}, g.ty.pointee? = some pointee → ∀ {v : Variable},
      v.HasType pointee → v.HasType g.ty := by
    intro g pointee hty v hv
    cases hptr : g.ty <;> rw [hptr] at hty <;> cases hty
    exact Variable.hasType_pointer.2 hv
  rw [(start_ok h).1]
  refine ⟨hfresh.program, fun {l} hl => ?_⟩
  obtain ⟨index, init, henter⟩ := hfresh.enter_of_start h hl
  obtain ⟨-, hmemory⟩ := Lane.memory_of_enter henter
  refine ⟨⟨fun {id ty v} hid hv => ?_, fun hid hv => ?_⟩, ⟨fun hid hq => ?_⟩, ⟨fun {id ty q} hid hq => ?_⟩⟩
  · rw [Lane.value_of_enter henter] at hv
    cases hid with
    | result hi hid =>
        have hresult := hi.isResult hid
        rw [Lane.boundBy_of_not_mem (hdeclares.results hresult), Lane.value_new hp hresult] at hv
        cases hv
    | global hg =>
        obtain ⟨v', ⟨pointee, a, hty, -, -, rfl⟩, hbound⟩ := hdeclares.globals hg
        cases (hbound _).symm.trans hv
        exact hpointee hty ((Variable.hasType_zeroed ..).ofBytes _)
  · obtain ⟨a, l₁, -, -, rfl⟩ := Lane.eq_of_enter henter
    rw [Lane.phiValues_skipNops] at hv
    cases (Table.get?_empty _).symm.trans hv
  · rw [hmemory] at hq
    cases hq
  · cases hid with
    | result hi hid =>
        cases ((pointer_of_new hp (hi.isResult hid) hnew).trans (hw _ (hi.isResult hid))).symm.trans hq
    | global hg =>
        obtain ⟨v', ⟨pointee, a, hty, -, hq', -⟩, -⟩ := hdeclares.globals hg
        cases hq'.symm.trans hq
        exact hty

/-- Between two rounds the lanes are typed, whatever the hosts answered. -/
theorem Reached.typed {s₀ : Session} (hp : p.UniqueIds) (hwell : p.WellTyped)
    (hb : ∀ g ∈ b.globals, ¬ p.IsResult g.id) (hw : ∀ id, p.IsResult id → w.memory.pointer? id = none)
    (hnew : Session.new p b w inits active config = .ok s₀) (h : Reached s₀ s) : s.Typed p := by
  induction h with
  | started h => exact typed_of_start hp hb hw hnew h
  | round _ _ ih => exact ih.round hp hwell _

/-- At every moment of a session of a well-typed program, each lane's value of a result has the members,
    element types, rows and columns of the zero of the result's type, and each component of its leaves
    fits its element type. -/
theorem values_have_types {s₀ : Session} (hp : p.UniqueIds) (hwell : p.WellTyped)
    (hb : ∀ g ∈ b.globals, ¬ p.IsResult g.id) (hw : ∀ id, p.IsResult id → w.memory.pointer? id = none)
    (hnew : Session.new p b w inits active config = .ok s₀) (h : Reached s₀ s) (ht : s.Moment t) :
    ∀ l ∈ t.lanes, ∀ (i : Instr) (id : Id) (v : Variable), p.HasInstr i → i.result = some id →
      l.value? id = some v →
      v.shape = (Variable.zeroed "" i.ty).shape ∧ ∀ x ∈ v.leaves, x.2.toNat < 2 ^ (8 * x.1.byteSize) := by
  have hs := h.typed hp hwell hb hw hnew
  have htyped : t.Typed p := by
    cases ht with
    | turns host mask => exact hs.stepLanes hp hwell host 0 mask
    | round host => exact hs.round hp hwell host
  intro l hl i id v hi hid hv
  obtain ⟨hshape, hbounded⟩ := (htyped.lane hl).values.value (.result hi hid) hv
  exact ⟨hshape, hbounded⟩

end

/-- A program that stores a number to an array, and puts what it loads into a vector of bytes. -/
def loadIntoVector : Program :=
  { stage := .compute
    functions := #[{
      name := "loadIntoVector"
      blocks := #[{}, {}]
      instrs := #[
        { op := .alloca, ty := .pointer (.array (.int 32) 2) .stack, result := some ⟨0⟩ },
        { op := .getElementPtr, ty := .pointer (.int 32) .stack, result := some ⟨1⟩,
          args := [.ref ⟨0⟩, .const (.int 32 0), .const (.int 32 1)] },
        { op := .store, args := [.ref ⟨1⟩, .const (.int 32 300)] },
        { op := .load, ty := .int 32, result := some ⟨2⟩, args := [.ref ⟨1⟩] },
        { op := .trunc, ty := .int 8, result := some ⟨3⟩, args := [.ref ⟨2⟩] },
        { op := .br, args := [.block 1] },
        { op := .phi, ty := .int 8, result := some ⟨4⟩, args := [.ref ⟨3⟩, .block 0] },
        { op := .insertElement, ty := .vector (.int 8) 2, result := some ⟨5⟩,
          args := [.undef (.vector (.int 8) 2), .ref ⟨4⟩, .const (.int 32 1)] },
        { op := .ret }] }]
    idCount := 6 }

theorem wellTyped_loadIntoVector : loadIntoVector.WellTyped := by
  have hinstr : ∀ i, i ∈ loadIntoVector.functions[0].instrs → loadIntoVector.HasInstr i := fun i hi =>
    ⟨_, Array.mem_singleton.2 rfl, hi⟩
  have hty : ∀ (k : Nat) (i : Instr) (id : Id), loadIntoVector.functions[0].instrs[k]? = some i → i.result = some id →
      loadIntoVector.HasTy id i.ty := fun k i id hi hid => .result (hinstr i (Array.mem_of_getElem? hi)) hid
  have hbits : 8 ∈ ScalarKind.int.widths ∧ 32 ∈ ScalarKind.int.widths := by decide
  have hindex : ∀ n, Operand.HasType loadIntoVector (.const (.int 32 n)) (.int 32) := fun n => .const (.int 32 n)
  rintro i ⟨f, hf, hi⟩
  rw [Array.mem_singleton.1 hf] at hi
  simp only [List.mem_toArray, List.mem_cons, List.not_mem_nil, or_false] at hi
  rcases hi with rfl | rfl | rfl | rfl | rfl | rfl | rfl | rfl | rfl
  · exact .alloca rfl rfl
  · exact .elementPointer rfl rfl ⟨_, rfl, .ref (hty 0 _ _ rfl rfl)⟩ ⟨_, hbits.2, _, rfl, hindex 0⟩ (.element (.here _))
  · exact .store (.inl rfl) rfl ⟨_, rfl, .ref (hty 1 _ _ rfl rfl)⟩ ⟨_, rfl, hindex 300⟩
  · exact .load (.inl rfl) ⟨_, rfl, .ref (hty 1 _ _ rfl rfl)⟩
  · exact .cast (.trunc (by decide)) (.one hbits.1) (.one hbits.2) ⟨_, rfl, .ref (hty 3 _ _ rfl rfl)⟩
  · exact .control (.inl rfl) rfl
  · refine .phi rfl fun k o ho => ?_
    cases k with
    | zero =>
        cases ho
        have hbyte : loadIntoVector.HasTy ⟨3⟩ (.int 8) := hty 4 _ _ rfl rfl
        exact .ref hbyte
    | succ k =>
        rw [Nat.mul_succ] at ho
        cases ho
  · exact .insertElement rfl rfl ⟨_, rfl, .undef _⟩ ⟨_, rfl, .ref (hty 6 _ _ rfl rfl)⟩ ⟨_, hbits.2, _, rfl, hindex 1⟩
  · exact .control (.inl rfl) rfl

/-- In the seventh turn, the lane of this program puts the low byte of the number into the vector. -/
theorem loadIntoVector_has_types :
    ∃ (s₀ s t : Session) (l : Lane) (v : Variable), Session.new loadIntoVector {} {} [{}] 0 {} = .ok s₀ ∧ Reached s₀ s ∧
      s.Moment t ∧ l ∈ t.lanes ∧ l.value? ⟨5⟩ = some v ∧
      v.shape = (Variable.zeroed "" (.vector (.int 8) 2)).shape ∧ v.leaves = [(.sByte, 0), (.sByte, 44)] := by
  have h : ∃ s₀, Session.new loadIntoVector {} {} [{}] 0 {} = .ok s₀ ∧ ∃ states, s₀.start.result = .ok states ∧
      ∃ s, s₀.start.session.advance .unbound 7 = .ok s ∧
      ∃ l, (s.stepLanes .unbound 0 [true]).session.lanes[0]? = some l ∧
      ∃ v, l.value? ⟨5⟩ = some v ∧ v.leaves = [(.sByte, 0), (.sByte, 44)] := by
    decide +kernel
  obtain ⟨s₀, hnew, states, hstart, s, hs, l, hl, v, hv, hleaves⟩ := h
  have hreached : Reached s₀ s := (Reached.started hstart).advance hs
  have hmem := List.mem_of_getElem? hl
  have htype := values_have_types (by decide) wellTyped_loadIntoVector (fun _ hg => absurd hg List.not_mem_nil)
    (fun _ _ => rfl) hnew hreached (.turns .unbound [true]) l hmem
    loadIntoVector.functions[0].instrs[7] ⟨5⟩ v ⟨_, Array.mem_singleton.2 rfl, Array.getElem_mem _⟩ rfl hv
  exact ⟨s₀, s, _, l, v, hnew, hreached, .turns .unbound [true], hmem, hv, htype.1, hleaves⟩

end Session

end Lockstep
