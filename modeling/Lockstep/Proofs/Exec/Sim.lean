import Lockstep.Proofs.Exec.Agree
import Lockstep.Proofs.Exec.Results
import Lockstep.Proofs.Lane.Frame

set_option autoImplicit false

/-! # Instructions on related machines

Two machines are related by what a theorem needs to know of them: that the second lacks what only the
reporting lane keeps, say, or that both are one and have a property. `Step.Sim` says of two computations
that what succeeds from a machine succeeds from every machine that is related to it, and leaves related
machines. -/

namespace Lockstep

/-! ## Kinds of instructions -/

/-- Whether the instruction writes through a pointer. -/
def Instr.writesMemory (i : Instr) : Bool :=
  match i.op with
  | .store | .storeAtomic | .atomicExchange | .atomicAdd | .atomicSub | .atomicAnd | .atomicNand
  | .atomicOr | .atomicXor | .atomicMax | .atomicMin | .atomicUMax | .atomicUMin => true
  | _ => false

namespace Intrinsic

/-- Whether the intrinsic writes to a resource. -/
def writesResource : Intrinsic → Bool
  | .bufferStore | .rawBufferStore | .textureStore | .atomicBinOp | .atomicCompareExchange => true
  | _ => false

/-- Whether the intrinsic works on the resource of a handle. -/
def usesHandle : Intrinsic → Bool
  | .cBufferLoadLegacy | .bufferLoad | .bufferStore | .rawBufferLoad | .rawBufferStore | .textureLoad
  | .textureStore | .getDimensions | .texture2DMSGetSamplePosition | .sample | .sampleBias
  | .sampleLevel | .sampleGrad | .sampleCmp | .sampleCmpLevelZero | .sampleCmpLevel | .sampleCmpGrad
  | .sampleCmpBias | .textureGather | .textureGatherCmp | .calculateLOD | .atomicBinOp
  | .atomicCompareExchange => true
  | _ => false

/-- Whether the intrinsic depends on the other lanes of the group. -/
def looksAround (op : Intrinsic) : Bool :=
  op.derivative?.isSome || op == .barrier ||
    op.sampleOperands?.any fun at_ => at_.gradients == .implicit

end Intrinsic

namespace Intrinsic

variable {op : Intrinsic}

theorem usesHandle_of_isTranscendental (h : op.isTranscendental) : op.usesHandle = false := by
  cases op <;> first | rfl | cases h

theorem usesHandle_of_builtin {builtin : Builtin} (h : op.builtin? = some builtin) :
    op.usesHandle = false := by
  cases op <;> first | rfl | cases h

theorem usesHandle_of_derivative {d : Axis × Bool} (h : op.derivative? = some d) :
    op.usesHandle = false := by
  cases op <;> first | rfl | cases h

theorem usesHandle_of_math {l : Lane} {i : Instr} {x : Except Fault Effect}
    (h : l.math? i op = some x) : op.usesHandle = false := by
  cases op <;> first | rfl | cases h

end Intrinsic

/-- A call of an intrinsic that works on no handle. -/
theorem Instr.not_usesHandle {i : Instr} {op : Intrinsic} (hop : i.intrinsic? = some op)
    (h : op.usesHandle = false) : ∀ op, i.intrinsic? = some op → ¬ op.usesHandle := by
  intro op' hop'
  obtain rfl := Option.some.inj (hop.symm.trans hop')
  simp [h]

/-- The element types of variables that stand for a resource whose use is reported. -/
def ElemType.isResource : ElemType → Bool
  | .readOnlyResource | .readWriteResource => true
  | _ => false

theorem Ty.isResource_elem (ty : Ty) : ty.elem.isResource = false := by
  have hint : ∀ bits, (Ty.intElem bits).isResource = false := by
    intro bits
    unfold Ty.intElem
    split <;> rfl
  have hfloat : ∀ bits, (Ty.floatElem bits).isResource = false := by
    intro bits
    unfold Ty.floatElem
    split <;> rfl
  fun_induction Ty.elem ty <;> first | assumption | rfl | exact hint _ | exact hfloat _

theorem Variable.isResource_zeroed (name : String) : (ty : Ty) →
    (Variable.zeroed name ty).elem.isResource = false
  | .pointer pointee _ => by
    rw [Variable.zeroed]
    exact Variable.isResource_zeroed name pointee
  | .array elem _ | .vector elem _ => by
    rw [Variable.zeroed]
    exact Ty.isResource_elem elem
  | .scalar kind bits => by
    rw [Variable.zeroed]
    exact Ty.isResource_elem (.scalar kind bits)
  | .struct .. | .handle | .void | .label => by
    rw [Variable.zeroed]
    rfl

theorem Instr.isResource_blank {i : Instr} : Yields (fun r => r.2.elem.isResource = false) i.blank := by
  intro r h
  obtain ⟨id, -, rfl⟩ := ok_of_map h
  exact Variable.isResource_zeroed _ _

theorem Instr.yields_sampleResult {i : Instr} {op : Intrinsic} {id : Id} :
    Yields (fun v => v.name = i.resultName id ∧ v.elem.isResource = false) (i.sampleResult op id) := by
  unfold Instr.sampleResult
  refine .ite (fun _ => .ok ⟨Variable.name_zeroed _ _, Variable.isResource_zeroed _ _⟩) fun _ => ?_
  split
  · exact .ok ⟨rfl, Ty.isResource_elem _⟩
  · exact .error _

theorem Lane.yields_chooseLod {l : Lane} {i : Instr} {op : Intrinsic} {answer result : Variable} :
    Yields (fun v => v.name = result.name ∧ v.elem = result.elem)
      (l.chooseLod i op answer result) := by
  unfold Lane.chooseLod
  refine .ite (fun _ => .after fun word => .ite (fun _ => ?_) fun _ => ?_) fun _ => ?_
  all_goals exact .ok ⟨rfl, rfl⟩

/-! ## What is shared -/

namespace World

theorem memory_srv (host : Host) (w : World) (slot : Slot) :
    (w.srv host slot).2.memory = w.memory := by
  unfold srv
  split <;> rfl

theorem memory_uav (host : Host) (w : World) (slot : Slot) :
    (w.uav host slot).2.memory = w.memory := by
  unfold uav
  split <;> rfl

end World

/-- To put related elements in one place keeps lists related. -/
theorem forall₂_set {α β : Type} {P : α → β → Prop} {l : List α} {l' : List β}
    (h : List.Forall₂ P l l') (index : Nat) {a : α} {b : β} (hab : P a b) :
    List.Forall₂ P (l.set index a) (l'.set index b) := by
  induction h generalizing index with
  | nil => exact .nil
  | cons hxy hrest ih =>
      cases index with
      | zero => exact .cons hab hrest
      | succ index => exact .cons hxy (ih index)

namespace Step

/-! ## Simulation -/

variable {α β γ δ : Type} {R : Machine → Machine → Prop}

/-- What succeeds in one computation succeeds in the other from a related machine, and the results and
    the machines that are left are related again. -/
structure Sim (R : Machine → Machine → Prop) (S : α → β → Prop) (x : Step α) (y : Step β) :
    Prop where
  ok : ∀ {m n a m'}, R m n → x.on m = (.ok a, m') → ∃ b n', y.on n = (.ok b, n') ∧ S a b ∧ R m' n'

namespace Sim

variable {S : α → β → Prop} {T : γ → δ → Prop}

theorem bind {x : Step α} {y : Step β} {f : α → Step γ} {g : β → Step δ} (hx : Sim R S x y)
    (hf : ∀ a b, S a b → Sim R T (f a) (g b)) : Sim R T (x >>= f) (y >>= g) := by
  constructor
  intro m n c m' hR h
  obtain ⟨a, m₁, ha, hc⟩ := ok_of_on_bind h
  obtain ⟨b, n₁, hb, hS, hR₁⟩ := hx.ok hR ha
  obtain ⟨d, n', hd, hT, hR'⟩ := (hf a b hS).ok hR₁ hc
  refine ⟨d, n', ?_, hT, hR'⟩
  rw [on_bind, hb]
  exact hd

/-- Two computations whose first parts have the same result. -/
theorem next {x y : Step α} {f : α → Step γ} {g : α → Step δ} (hx : Sim R Eq x y)
    (hf : ∀ a, Sim R T (f a) (g a)) : Sim R T (x >>= f) (y >>= g) :=
  hx.bind fun a _ h => h ▸ hf a

theorem pure {a : α} {b : β} (h : S a b) : Sim R S (Pure.pure a : Step α) (Pure.pure b) := by
  constructor
  intro m n _ _ hR hok
  cases hok
  exact ⟨b, n, rfl, h, hR⟩

theorem throw (fault : Fault) (y : Step β) : Sim R S (MonadExcept.throw fault : Step α) y := by
  constructor
  intro _ _ _ _ _ hok
  cases hok

theorem ite {c : Prop} [Decidable c] {x x' : Step α} {y y' : Step β} (hx : c → Sim R S x y)
    (hx' : ¬ c → Sim R S x' y') : Sim R S (if c then x else x') (if c then y else y') := by
  split
  · next hc => exact hx hc
  · next hc => exact hx' hc

/-- A computation that is given up on a condition. -/
theorem guard {c : Prop} [Decidable c] {fault : Fault} {x : Unit → Step α} {y : Unit → Step β}
    (h : ¬ c → Sim R S (x ()) (y ())) :
    Sim R S (if c then MonadExcept.throw fault >>= x else x ())
      (if c then MonadExcept.throw fault >>= y else y ()) :=
  .ite (fun _ => .bind (.throw (S := fun _ _ => False) fault _) fun _ _ h => h.elim) h

/-- What only computes, and has related results. -/
theorem lift {x : Except Fault α} {y : Except Fault β}
    (h : ∀ a, x = .ok a → ∃ b, y = .ok b ∧ S a b) : Sim R S (liftM x : Step α) (liftM y) := by
  constructor
  intro m n a m' hR hok
  rw [on_lift] at hok
  obtain ⟨ha, rfl⟩ := Prod.mk.inj hok
  obtain ⟨b, hb, hS⟩ := h a ha
  exact ⟨b, n, by rw [on_lift, hb], hS, hR⟩

theorem lift_eq (x : Except Fault α) : Sim R Eq (liftM x : Step α) (liftM x) :=
  .lift fun a ha => ⟨a, ha, rfl⟩

/-- What only computes comes first; of its result it is known where it comes from. -/
theorem compute {x : Except Fault α} {f : α → Step γ} {g : α → Step δ}
    (hf : ∀ a, x = .ok a → Sim R T (f a) (g a)) :
    Sim R T ((liftM x : Step α) >>= f) ((liftM x : Step α) >>= g) :=
  .bind (.lift fun a ha => ⟨a, ha, rfl, ha⟩ : Sim R (fun a b => a = b ∧ x = .ok a) _ _)
    fun a _ ⟨hab, ha⟩ => hab ▸ hf a ha

/-- What goes on with the lane: of related machines it is known which lanes they have. -/
theorem ofLane {f : Lane → Step α} {g : Lane → Step β}
    (h : ∀ {m n}, R m n → Sim R S (f m.lane) (g n.lane)) :
    Sim R S (Step.lane >>= f) (Step.lane >>= g) :=
  ⟨fun hR hok => (h hR).ok hR hok⟩

/-- What goes on with the shared memory. -/
theorem ofShared {f : Memory → Step α} {g : Memory → Step β}
    (h : ∀ {m n}, R m n → Sim R S (f m.world.memory) (g n.world.memory)) :
    Sim R S (Step.shared >>= f) (Step.shared >>= g) :=
  ⟨fun hR hok => (h hR).ok hR hok⟩

/-- What goes on with the lane and the shared memory. -/
theorem ofMemory {f : Lane → Memory → Step α} {g : Lane → Memory → Step β}
    (h : ∀ {m n}, R m n → Sim R S (f m.lane m.world.memory) (g n.lane n.world.memory)) :
    Sim R S (Step.lane >>= fun l => Step.shared >>= f l) (Step.lane >>= fun l => Step.shared >>= g l) :=
  ⟨fun hR hok => (h hR).ok hR hok⟩

/-- An update of the lane. -/
theorem modifyLane {f g : Lane → Lane} (h : ∀ {m n}, R m n → R { m with lane := f m.lane }
    { n with lane := g n.lane }) : Sim R Eq (Step.modifyLane f) (Step.modifyLane g) := by
  constructor
  intro m n a m' hR hok
  cases hok
  exact ⟨(), _, rfl, rfl, h hR⟩

/-- An update of what is shared. -/
theorem modifyWorld {f g : World → World} (h : ∀ {m n}, R m n → R { m with world := f m.world }
    { n with world := g n.world }) : Sim R Eq (Step.modifyWorld f) (Step.modifyWorld g) := by
  constructor
  intro m n a m' hR hok
  cases hok
  exact ⟨(), _, rfl, rfl, h hR⟩

/-- A change that is reported in both. -/
theorem note {c d : Change} (h : ∀ {m n}, R m n → R { m with changes := m.changes.push c }
    { n with changes := n.changes.push d }) : Sim R Eq (Step.note c) (Step.note d) := by
  constructor
  intro m n a m' hR hok
  cases hok
  exact ⟨(), _, rfl, rfl, h hR⟩

/-- Events that are reported in both. -/
theorem raise {e : Events} (h : ∀ {m n}, R m n → R { m with events := m.events.union e }
    { n with events := n.events.union e }) : Sim R Eq (Step.raise e) (Step.raise e) := by
  constructor
  intro m n a m' hR hok
  cases hok
  exact ⟨(), _, rfl, rfl, h hR⟩

end Sim

end Step

end Lockstep
