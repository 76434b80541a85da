import Lockstep.Proofs.Exec.Maintains
import Lockstep.Proofs.Lane.Holdings
import Lockstep.Proofs.Typing.Compute

set_option autoImplicit false

/-! # Lanes of well-typed programs

A lane is typed if its values have the types of their identifiers, and pointers lead to values of the
types that their identifiers point to. The computations of a well-typed instruction keep that, whether
they succeed or not (`Step.Types.bind`), and what they assign has the type of its identifier. So a lane
of a well-typed program stays typed (`Lane.Typed.step`). -/

namespace Lockstep

/-- An identifier has one type. -/
theorem Program.UniqueIds.eq_of_hasTy {p : Program} {id : Id} {ty ty' : Ty} (hp : p.UniqueIds)
    (h : p.HasTy id ty) (h' : p.HasTy id ty') : ty = ty' := by
  cases h with
  | result hi hid =>
      cases h' with
      | result hj hjid => rw [hp.eq_of_result hi hj hid hjid]
      | global hg => exact absurd ⟨_, hg, rfl⟩ (hp.apart (hi.isResult hid))
  | global hg =>
      generalize hid : GlobalDecl.id _ = id at h'
      cases h' with
      | result hj hjid => exact absurd ⟨_, hg, hid⟩ (hp.apart (hj.isResult hjid))
      | global hg' => rw [List.inj_on_of_nodup_map hp.nodup_globals hg hg' hid]

/-- A value has the type of an identifier, whatever that is. -/
structure Variable.Fits (p : Program) (id : Id) (v : Variable) : Prop where
  hasType : ∀ {ty}, p.HasTy id ty → v.HasType ty

/-- An effect assigns nothing but values that have the types of their identifiers. -/
inductive Effect.Fits (p : Program) : Effect → Prop
  | proceed : Fits p .proceed
  | kill : Fits p .kill
  | assign {id : Id} {v : Variable} {report : Bool} (h : v.Fits p id) : Fits p (.assign id v report)

/-- Pointers lead to values of the types that their identifiers point to. -/
structure Memory.Typed (p : Program) (m : Memory) : Prop where
  pointee : ∀ {id ty q}, p.HasTy id ty → m.pointer? id = some q → ty.pointee? = some q.pointee

/-- The values of a lane have the types of their identifiers, and its pointers and the shared ones lead to
    values of the types that theirs point to. -/
structure Lane.Typed (p : Program) (l : Lane) (w : World) : Prop where
  values : l.HasTypes p
  own : l.memory.Typed p
  shared : w.memory.Typed p

variable {p : Program}

/-! ## Pointers -/

namespace Memory.Typed

variable {m m' : Memory} {id : Id} {q : Pointer} {bytes : Bytes}

theorem insert (h : m.Typed p) (hq : ∀ {ty}, p.HasTy id ty → ty.pointee? = some q.pointee)
    (hm : ∀ x, m'.pointer? x = if x = id then some q else m.pointer? x) : m'.Typed p := by
  refine ⟨fun {x ty q'} hx hq' => ?_⟩
  rw [hm] at hq'
  split at hq'
  · next heq =>
      cases hq'
      exact hq (heq ▸ hx)
  · exact h.pointee hx hq'

theorem write (h : m.Typed p) (hok : m.write q bytes = .ok m') : m'.Typed p := by
  refine ⟨fun {x _ _} hx hq => h.pointee hx ?_⟩
  rwa [pointer?, (write_ok hok).1] at hq

end Memory.Typed

/-- A pointer that an operand resolves to leads to a value of the type that the operand points to. -/
theorem Lane.pointee_eq {l : Lane} {shared : Memory} {i : Instr} {src : Id} {q : Pointer} {ty : Ty}
    {space : AddressSpace} (hown : l.memory.Typed p) (hshared : shared.Typed p)
    (ha : i.Takes p 0 (.pointer ty space)) (hsrc : i.argId 0 = .ok src) (hq : l.resolve shared src = .ok q) :
    q.pointee = ty := by
  obtain ⟨o, ho, hty⟩ := ha
  unfold Instr.argId at hsrc
  rw [ho] at hsrc
  cases hty with
  | ref hid =>
      cases hsrc
      unfold resolve at hq
      split at hq
      · next q' hq' =>
          cases hq
          have hpointee : (Ty.pointer ty space).pointee? = some q.pointee := by
            rcases (Option.orElse_eq_some ..).1 hq' with hq' | ⟨-, hq'⟩
            · exact hown.pointee hid hq'
            · exact hshared.pointee hid hq'
          cases hpointee
          rfl
      · cases hq
  | const => cases hsrc
  | undef => cases hsrc

/-- A path of indices leads to the type at its end. -/
theorem Lane.selectPath_eq {l : Lane} {i : Instr} {ty part : Ty} (hflush : ¬ i.isFlushing) {args : List Operand}
    (hpath : ty.Path (fun c k => (c.toVariable.intComp 0).toInt = k) args part) {offset offset' : Int}
    {selected : Ty} {index n : Nat} (hargs : i.args.drop index = args) (hn : n = args.length)
    (h : l.selectPath i offset ty index n = .ok (offset', selected)) : selected = part := by
  induction hpath generalizing offset index n with
  | here ty =>
      subst hn
      cases h
      rfl
  | @member name members c k ty part rest hc hty hrest ih =>
      subst hn
      obtain ⟨hindex, hargs⟩ := getElem?_of_drop hargs
      rw [List.length_cons, selectPath, arg_const hflush hindex, hindex] at h
      obtain ⟨pick, hpick, h₁⟩ := ok_of_bind h
      cases hpick
      obtain ⟨⟨next, member⟩, hmember, h₂⟩ := ok_of_bind h₁
      have hselected : member = ty := by
        rw [hc] at hmember
        unfold selectElement at hmember
        simp only [Option.any_some, Operand.isConst, Bool.not_true, Bool.false_eq_true, if_false,
          Int.toNat_natCast, hty, if_neg (Int.not_lt.2 (Int.natCast_nonneg k))] at hmember
        obtain ⟨_, -, heq⟩ := ok_of_map hmember
        cases heq
        rfl
      subst hselected
      exact ih hargs rfl h₂
  | @element elem m o part rest hrest ih =>
      subst hn
      obtain ⟨-, hargs⟩ := getElem?_of_drop hargs
      rw [List.length_cons, selectPath] at h
      obtain ⟨pick, -, h₁⟩ := ok_of_bind h
      obtain ⟨⟨next, member⟩, hmember, h₂⟩ := ok_of_bind h₁
      obtain ⟨_, -, heq⟩ := ok_of_map hmember
      cases heq
      exact ih hargs rfl h₂
  | component =>
      subst hn
      rw [List.length_singleton, selectPath] at h
      obtain ⟨pick, -, h₁⟩ := ok_of_bind h
      obtain ⟨⟨next, member⟩, hmember, h₂⟩ := ok_of_bind h₁
      obtain ⟨_, -, heq⟩ := ok_of_map hmember
      cases heq
      cases h₂
      rfl

/-! ## Computations -/

/-- A computation keeps a machine typed, whether it succeeds or not, and what it gives has a property. -/
def Step.Types (p : Program) {α : Type} (Q : α → Prop) (x : Step α) : Prop :=
  ∀ m : Machine, m.lane.Typed p m.world →
    (x.on m).2.lane.Typed p (x.on m).2.world ∧ ∀ a, (x.on m).1 = .ok a → Q a

namespace Step

namespace Types

variable {α β : Type} {Q : α → Prop} {R : β → Prop} {x : Step α} {f : α → Step β}

theorem bind (hx : x.Types p Q) (hf : ∀ a, Q a → (f a).Types p R) : (x >>= f).Types p R := Maintains.bind hx hf

/-- A computation that only looks at its lane. -/
theorem ofLane {g : Lane → Except Fault α} (hx : ∀ m, x.on m = (g m.lane, m))
    (hg : ∀ l : Lane, l.HasTypes p → Yields Q (g l)) : x.Types p Q := by
  intro m hm
  rw [hx]
  exact ⟨hm, hg m.lane hm.values⟩

theorem lift {x : Except Fault α} (hx : Yields Q x) : (liftM x : Step α).Types p Q :=
  fun _ hm => ⟨hm, hx⟩

theorem pure {a : α} (ha : Q a) : (Pure.pure a : Step α).Types p Q := lift (.ok ha)

theorem throw (fault : Fault) : (MonadExcept.throw fault : Step α).Types p Q := lift (.error fault)

theorem ite {c : Prop} [Decidable c] {y : Step α} (hx : c → x.Types p Q) (hy : ¬ c → y.Types p Q) :
    (if c then x else y).Types p Q :=
  Maintains.ite hx hy

theorem lane : Types p (fun l => l.HasTypes p ∧ l.memory.Typed p) Step.lane :=
  fun _ hm => ⟨hm, fun _ hl => ok_inj hl ▸ ⟨hm.values, hm.own⟩⟩

theorem shared : Types p (fun memory => memory.Typed p) Step.shared :=
  fun _ hm => ⟨hm, fun _ h => ok_inj h ▸ hm.shared⟩

theorem modifyLane {g : Lane → Lane} (h : ∀ l : Lane, l.HasTypes p → l.memory.Typed p →
    (g l).HasTypes p ∧ (g l).memory.Typed p) : Types p (fun _ => True) (Step.modifyLane g) :=
  fun m hm => ⟨⟨(h m.lane hm.values hm.own).1, (h m.lane hm.values hm.own).2, hm.shared⟩, fun _ _ => trivial⟩

theorem modifyWorld {g : World → World} (h : ∀ w : World, w.memory.Typed p → (g w).memory.Typed p) :
    Types p (fun _ => True) (Step.modifyWorld g) :=
  fun m hm => ⟨⟨hm.values, hm.own, h m.world hm.shared⟩, fun _ _ => trivial⟩

theorem note (c : Change) : Types p (fun _ => True) (Step.note c) :=
  fun _ hm => ⟨⟨hm.values, hm.own, hm.shared⟩, fun _ _ => trivial⟩

end Types

end Step

/-! ## Instructions on memory -/

section

variable {l : Lane} {i : Instr} {id : Id} {v : Variable} {q : Pointer} {bytes : Bytes} {ty part : Ty}
  {space : AddressSpace}

theorem Variable.Fits.ofBytes (h : v.Fits p id) (bytes : Bytes) : (v.ofBytes bytes).Fits p id :=
  ⟨fun hty => (h.hasType hty).ofBytes bytes⟩

/-- What has the type of an instruction has that of its result. -/
theorem Variable.Fits.ofResult (hp : p.UniqueIds) (hi : p.HasInstr i) (hid : i.result = some id)
    (hv : v.HasType i.ty) : v.Fits p id :=
  ⟨fun hty => hp.eq_of_hasTy hty (.result hi hid) ▸ hv⟩

theorem Lane.HasTypes.assign (h : l.HasTypes p) (hv : v.Fits p id) : (l.assign id v).HasTypes p := by
  refine ⟨fun {x ty w} hx hw => ?_, fun hx hw => h.phi hx (phiValues_assign l id v ▸ hw)⟩
  rcases value_cases_of_assign hw with ⟨rfl, rfl⟩ | hw
  · exact hv.hasType hx
  · exact h.value hx hw

namespace Step

theorem types_assigned : Types p (Variable.Fits p id) (assigned id) := by
  unfold assigned
  refine .bind .lane fun l hl => ?_
  split
  · next v hv => exact .pure ⟨fun hty => hl.1.value hty hv⟩
  · exact .throw _

theorem types_arg {index : Nat} (ha : i.Takes p index ty) : Types p (·.HasType ty) (arg i index) :=
  .bind .lane fun _ hl => .lift (hl.1.arg ha)

theorem types_readThrough : Types p (fun _ => True) (readThrough q) :=
  .bind .lane fun _ _ => .bind .shared fun _ _ => .lift fun _ _ => trivial

theorem types_pointerArg (ha : i.Takes p 0 (.pointer ty space)) :
    Types p (fun r => r.2.pointee = ty) (pointerArg i) := by
  unfold pointerArg
  refine .bind (Q := fun src => i.argId 0 = .ok src) (.lift fun _ => id) fun src hsrc => ?_
  refine .bind .lane fun l hl => .bind .shared fun shared hshared => ?_
  exact .bind (.lift fun q hq => Lane.pointee_eq hl.2 hshared ha hsrc hq) fun q hq => .pure hq

theorem types_writeThrough : Types p (fun _ => True) (writeThrough q bytes) := by
  unfold writeThrough
  refine .bind .lane fun l _ => .ite (fun _ => ?_) fun _ => ?_
  · refine .bind .lane fun l hl => .bind (.lift fun memory hok => hl.2.write hok) fun memory hmemory => ?_
    exact .modifyLane fun l hl _ => ⟨⟨hl.value, hl.phi⟩, hmemory⟩
  · refine .bind .shared fun shared hshared => .bind (.lift fun memory hok => hshared.write hok)
      fun memory hmemory => ?_
    exact .modifyWorld fun _ _ => hmemory

theorem types_overwrite (hv : v.Fits p id) : Types p (fun _ => True) (overwrite id v) := by
  unfold overwrite
  refine .bind .lane fun l _ => .ite (fun _ => .bind (.note _) fun _ _ => ?_) fun _ => .pure trivial
  refine .modifyLane fun l hl hown => ⟨hl.assign hv, ?_⟩
  rwa [Lane.memory_assign]

/-- A store keeps the values that it refreshes typed. -/
theorem types_store : Types p (fun r => r.2.Fits p r.1) (store id q bytes) := by
  unfold store
  refine .bind types_writeThrough fun _ _ => .bind .lane fun l _ => .bind .shared fun shared _ => ?_
  refine .bind types_assigned fun before hbefore => ?_
  refine .bind (Q := Variable.Fits p q.base) (.lift fun after hok => ?_) fun after hafter => ?_
  · obtain ⟨a, -, rfl⟩ := Memory.reload_ok hok
    exact hbefore.ofBytes _
  · refine .ite (fun _ => .pure hafter) fun _ => .bind (types_overwrite hafter) fun _ _ => ?_
    exact .bind types_assigned fun v hv => .bind types_readThrough fun content _ => .pure (hv.ofBytes _)

theorem types_storeArg {pointee : Ty} (ha : i.Takes p 0 (.pointer pointee space)) (hb : i.Takes p 1 ty) :
    Types p (Effect.Fits p) (storeArg i) := by
  unfold storeArg
  refine .bind (types_pointerArg ha) fun ⟨src, q⟩ _ => .bind (types_arg hb) fun v _ => ?_
  exact .bind types_store fun ⟨target, after⟩ hafter => .pure (.assign hafter)

variable (hp : p.UniqueIds) (hi : p.HasInstr i)
include hp hi

theorem types_alloca : Types p (Effect.Fits p) (alloca i) := by
  unfold alloca
  refine .bind (.lift Instr.yields_resultId) fun id hid => .bind .lane fun l hl => ?_
  refine .bind (Q := fun r => r.1.Fits p id ∧ r.2.Typed p) (.lift fun r hr => ?_) fun ⟨v, memory⟩ hv =>
    .bind (.modifyLane fun l hl _ => ⟨⟨hl.value, hl.phi⟩, hv.2⟩) fun _ _ => .pure (.assign hv.1)
  obtain ⟨pointee, hpointee, rfl⟩ := Memory.allocateFor_ok hr
  have hty : ∀ {ty}, p.HasTy id ty → ty = i.ty := fun hty => hp.eq_of_hasTy hty (.result hi hid)
  refine ⟨.ofResult hp hi hid ?_, hl.2.insert (q := ⟨id, 0, pointee.byteSize, pointee⟩) (fun h => ?_) fun x =>
    Memory.pointer?_allocate ..⟩
  · cases hptr : i.ty <;> rw [hptr] at hpointee <;> cases hpointee
    exact Variable.hasType_pointer.2 (Variable.hasType_zeroed ..)
  · rw [hty h]
    exact hpointee

theorem types_load (ha : i.Takes p 0 (.pointer ty space)) : Types p (Effect.Fits p) (load i) := by
  have hblank : Yields (fun r => i.result = some r.1 ∧ r.2.HasType i.ty) i.blank :=
    fun r hr => ⟨(Instr.yields_blank r hr).1, Instr.yields_blank_hasType r hr⟩
  unfold load
  refine .bind (.lift hblank) fun ⟨id, result⟩ hresult => .bind (types_pointerArg ha) fun ⟨src, q⟩ _ => ?_
  exact .bind types_readThrough fun content _ => .pure (.assign (.ofResult hp hi hresult.1 (hresult.2.ofBytes _)))

theorem types_elementPointer (hop : i.op = .getElementPtr) (hty : i.ty = .pointer part space)
    (ha : i.Takes p 0 (.pointer ty space))
    (hpath : ty.Path (fun c k => (c.toVariable.intComp 0).toInt = k) (i.args.drop 2) part) :
    Types p (Effect.Fits p) (elementPointer i) := by
  have hflush : ¬ i.isFlushing := by
    unfold Instr.isFlushing
    rw [hop]
    exact Bool.false_ne_true
  unfold elementPointer
  refine .bind (.lift Instr.yields_resultId) fun id hid => .bind .lane fun l hl => ?_
  refine .bind .shared fun shared hshared => ?_
  refine .bind (Q := fun q => q.pointee = part) (.lift fun q hq => ?_) fun q hq => ?_
  · obtain ⟨src, base, _, _, _, selected, _, hsrc, hbase, -, -, hselected, -, hplace⟩ := Lane.derive_ok hq
    obtain ⟨-, -, rfl⟩ := Lane.placeAt_ok hplace
    rw [Lane.pointee_eq hl.2 hshared ha hsrc hbase] at hselected
    exact Lane.selectPath_eq hflush hpath rfl List.length_drop.symm hselected
  · subst hq
    refine .bind types_readThrough fun content _ =>
      .bind (.modifyLane fun l hl hown => ?_) fun _ _ => .pure (.assign ?_)
    · refine ⟨⟨hl.value, hl.phi⟩, hown.insert (fun h => ?_) fun x => Memory.pointer?_addPointer ..⟩
      rw [hp.eq_of_hasTy h (.result hi hid), hty]
      rfl
    · refine .ofResult hp hi hid ?_
      rw [hty]
      exact Variable.hasType_pointer.2 ((Variable.hasType_zeroed ..).ofBytes _)

theorem types_atomic (hty : ∀ id, i.result = some id → i.ty = ty) (ha : i.Takes p 0 (.pointer ty space))
    {operand : Ty} (hb : i.Takes p 1 operand) : Types p (Effect.Fits p) (atomic i) := by
  unfold atomic
  refine .bind (types_pointerArg ha) fun ⟨src, q⟩ hq => .bind (types_arg hb) fun operand _ => ?_
  refine .bind types_readThrough fun bytes _ => ?_
  dsimp only
  split
  · exact .throw _
  · refine .bind types_store fun ⟨target, after⟩ hafter => ?_
    dsimp only
    split
    · exact .pure (.assign hafter)
    · next result hresult =>
        refine .bind (types_overwrite hafter) fun _ _ => .pure (.assign (.ofResult hp hi hresult ?_))
        rw [hty result hresult, ← hq]
        exact ((Variable.hasType_zeroed ..).ofBytes bytes).withName _

end Step

end

/-! ## Steps -/

/-- What an instruction gives its result, if it has the type of the instruction. -/
theorem Effect.Fits.ofGives {i : Instr} {e : Effect} (hp : p.UniqueIds) (hi : p.HasInstr i) (hgives : i.Gives e)
    (he : e.HasType i.ty) : e.Fits p := by
  cases hgives with
  | proceed _ => exact .proceed
  | kill => exact .kill
  | value id v hid _ =>
      cases he with
      | assign hv => exact .assign (.ofResult hp hi hid hv)

theorem Variable.Fits.assigned {id : Id} {v : Variable} (h : v.Fits p id) (i : Instr) : (i.assigned v).Fits p id := by
  unfold Instr.assigned
  split
  · exact ⟨fun hty => (h.hasType hty).flushed⟩
  · exact h

namespace Lane.HasTypes

variable {l : Lane}

/-- What lanes have in common that have the same values for identifiers and for phi nodes. -/
theorem congr {l' : Lane} (h : l.HasTypes p) (hvalue : l'.value? = l.value?) (hphi : l'.phiValues = l.phiValues) :
    l'.HasTypes p :=
  ⟨fun hid hv => h.value hid (hvalue ▸ hv), fun hid hv => h.phi hid (hphi ▸ hv)⟩

/-- What phi nodes read when control leaves a block are values of the lane. -/
theorem jumpTo {a : FunctionAnalysis} {b : Nat} {l' : Lane} (h : l.HasTypes p) (hok : l.jumpTo a b = .ok l') :
    l'.HasTypes p := by
  obtain ⟨hvalue, -⟩ := value_jumpTo hok
  refine ⟨fun hid hv => h.value hid (hvalue ▸ hv), fun {id ty v} hid hv => ?_⟩
  obtain ⟨_, -, rfl⟩ := jumpTo_ok hok
  have hmem := Table.mem_of_get?_ofList hv
  rw [List.mem_filterMap] at hmem
  obtain ⟨x, -, hx⟩ := hmem
  rw [Option.map_eq_some_iff] at hx
  obtain ⟨w, hw, heq⟩ := hx
  cases heq
  exact h.value hid hw

end Lane.HasTypes

namespace Step

variable {s : Setting} {a : FunctionAnalysis} {i : Instr} {id : Id} {v : Variable}

/-- To go on, or to refuse an instruction that ends its block. -/
theorem types_control (h : i.isTerminator ∨ i.isNop ∨ i.op = .fence) : Types p (Effect.Fits p) (compute s i) := by
  have hproceed : Types p (Effect.Fits p) (do let _ ← lane; return .proceed) := .bind .lane fun _ _ => .pure .proceed
  rcases h with hend | hnop | hop
  · have hop : i.op = .br ∨ i.op = .switch ∨ i.op = .ret ∨ i.op = .unreachable := by
      unfold Instr.isTerminator Opcode.isTerminator at hend
      split at hend <;> simp_all
    unfold compute
    rcases hop with hop | hop | hop | hop <;> rw [hop] <;> exact .bind .lane fun _ _ => .throw _
  · unfold compute call
    unfold Instr.isNop at hnop
    split at hnop
    · next hop =>
        rw [hop]
        exact hproceed
    · next hop hcallee =>
        rw [hop, hcallee]
        exact hproceed
    · next hop hcallee =>
        rw [hop, hcallee]
        exact hproceed
    · cases hnop
  · unfold compute
    rw [hop]
    exact hproceed

/-- Instructions that read a lane, and give what fits their type. -/
theorem types_of_gives (hp : p.UniqueIds) (hi : p.HasInstr i) {g : Lane → Except Fault Effect}
    (hon : ∀ m, (compute s i).on m = (g m.lane, m)) (hgives : ∀ l : Lane, Yields i.Gives (g l))
    (htypes : ∀ l : Lane, l.HasTypes p → Yields (Effect.HasType i.ty) (g l)) :
    Types p (Effect.Fits p) (compute s i) :=
  .ofLane hon fun l hl e he => .ofGives hp hi (hgives l e he) (htypes l hl e he)

theorem types_of_memory (hi : i.usesMemory) (h : Types p (Effect.Fits p) (memory i)) :
    Types p (Effect.Fits p) (compute s i) := by
  intro m hm
  rw [compute_of_usesMemory hi]
  exact h m hm

theorem types_of_vector (hp : p.UniqueIds) (hi : p.HasInstr i)
    (hop : i.op = .extractVal ∨ i.op = .extractElement ∨ i.op = .insertElement ∨ i.op = .shuffleVector)
    (h : ∀ l : Lane, l.HasTypes p → Yields (Effect.HasType i.ty) (l.vector i)) :
    Types p (Effect.Fits p) (compute s i) :=
  types_of_gives (g := (·.vector i)) hp hi (fun _ => on_compute_vector hop) (fun _ => Lane.gives_vector) h

/-- A well-typed instruction does not give a value of another type. -/
theorem types_compute (hp : p.UniqueIds) (hi : p.HasInstr i) (hwell : i.WellTyped p) :
    Types p (Effect.Fits p) (compute s i) := by
  cases hwell with
  | arithmetic hint hty _ _ =>
      exact types_of_gives (g := (·.arithmetic i)) hp hi
        (fun _ => on_compute_arithmetic (.inl (Option.isSome_of_eq_some hint))) (fun _ => Lane.gives_arithmetic)
        fun _ _ => Lane.hasType_arithmetic hint hty
  | floatArithmetic hfloat _ _ _ =>
      exact types_of_gives (g := (·.arithmetic i)) hp hi
        (fun _ => on_compute_arithmetic (.inr (Option.isSome_of_eq_some hfloat))) (fun _ => Lane.gives_arithmetic)
        fun _ _ => Lane.hasType_floatArithmetic hfloat
  | comparison hcompares _ _ _ _ =>
      exact types_of_gives (g := (·.compare i)) hp hi (fun _ => on_compute_compare hcompares)
        (fun _ => Lane.gives_compare) fun _ _ => Lane.hasType_compare
  | cast hcasts hty hoperand ha =>
      exact types_of_gives (g := (·.cast i)) hp hi (fun _ => on_compute_cast hcasts) (fun _ => Lane.gives_cast)
        fun _ hl => hl.cast hcasts hty hoperand ha
  | bitcast hbitcast _ _ =>
      exact types_of_gives (g := (·.cast i)) hp hi (fun _ => on_compute_bitcast hbitcast) (fun _ => Lane.gives_cast)
        fun _ _ => Lane.hasType_bitcast hbitcast
  | phi hphi hargs =>
      exact types_of_gives (g := (·.phi i)) hp hi (fun _ => on_compute_phi hphi) (fun _ => Lane.gives_phi)
        fun _ hl => hl.phiNode hargs
  | select hselect hcond ha hb =>
      refine types_of_gives (g := (·.select i)) hp hi (fun _ => on_compute_select hselect)
        (fun _ => Lane.gives_select) fun _ hl => hl.select hcond ha hb fun hv hseveral _ _ => ?_
      rw [hv.scalar.2.1] at hseveral
      exact absurd hseveral (Nat.lt_irrefl 1)
  | selectEach hselect hty hcond ha hb =>
      exact types_of_gives (g := (·.select i)) hp hi (fun _ => on_compute_select hselect)
        (fun _ => Lane.gives_select) fun _ hl =>
          hl.select hcond ha hb fun hv _ htrue hfalse => Lane.hasType_mergeBy hty hv.vector.2.1 htrue hfalse
  | extractElement hextract hty ha _ =>
      exact types_of_vector hp hi (.inr (.inl hextract)) fun _ hl => hl.extractElement hextract hty ha
  | insertElement hinsert hty ha hb _ =>
      exact types_of_vector hp hi (.inr (.inr (.inl hinsert))) fun _ hl => hl.insertElement hinsert hty ha hb
  | shuffleVector hshuffle hty ha hb _ =>
      exact types_of_vector hp hi (.inr (.inr (.inr hshuffle))) fun _ hl => hl.shuffleVector hshuffle hty ha hb
  | extractVal hextract ha hpath =>
      exact types_of_vector hp hi (.inl hextract) fun _ hl => hl.extractVal hextract ha hpath
  | alloca hop _ =>
      refine types_of_memory (by rw [Instr.usesMemory, hop]) ?_
      unfold memory
      rw [hop]
      exact types_alloca hp hi
  | load hop ha =>
      have hload := types_load hp hi ha
      rcases hop with hop | hop <;>
        refine types_of_memory (by rw [Instr.usesMemory, hop]) ?_ <;> unfold memory <;> rw [hop] <;> exact hload
  | store hop _ ha hb =>
      have hstore := types_storeArg ha hb
      rcases hop with hop | hop <;>
        refine types_of_memory (by rw [Instr.usesMemory, Instr.writesMemory, hop]) ?_ <;> unfold memory <;> rw [hop] <;>
        exact hstore
  | elementPointer hop hty ha _ hpath =>
      refine types_of_memory (by rw [Instr.usesMemory, hop]) ?_
      unfold memory
      rw [hop]
      exact types_elementPointer hp hi hop hty ha hpath
  | atomic hatomic hty ha hb =>
      have hchange := types_atomic hp hi hty ha hb
      refine types_of_memory ?_ ?_
      · unfold Instr.usesMemory Instr.writesMemory
        cases hop : i.op <;> rw [hop] at hatomic <;> first | rfl | cases hatomic
      · unfold memory
        cases hop : i.op <;> rw [hop] at hatomic <;> first | exact hchange | cases hatomic
  | compareExchange hop _ _ _ _ =>
      unfold compute
      rw [hop]
      exact .bind .lane fun _ _ => .throw _
  | control hop _ => exact types_control hop

theorem types_instruction (hp : p.UniqueIds) (hi : p.HasInstr i) (hwell : i.WellTyped p) :
    Types p (fun o => ∀ e, o = .effect e → e.Fits p) (instruction s i) := by
  unfold instruction
  refine .ite (fun _ => .bind .lane fun l _ => .lift fun o ho => ?_) fun _ =>
    .bind (types_compute hp hi hwell) fun e he => .pure ?_
  · rintro e rfl
    rcases Lane.terminate_cases ho with ⟨b, -, heq⟩ | heq | heq <;> cases heq
    exact .kill
  · rintro _ ⟨⟩
    exact he

/-! ## Outcomes -/

theorem types_retire (keep : Option Id) : Types p (fun _ => True) (retire a keep) := by
  intro m hm
  rw [on_retire]
  exact ⟨⟨hm.values.congr (Lane.value_retire ..) rfl, hm.own, hm.shared⟩, fun _ _ => trivial⟩

theorem types_assign {report : Bool} (hv : v.Fits p id) : Types p (fun _ => True) (assign i id v report) := by
  have hannounce : Types p (fun _ => True) (announce id (i.assigned v)) := by
    intro m hm
    rw [on_announce]
    exact ⟨⟨hm.values, hm.own, hm.shared⟩, fun _ _ => trivial⟩
  have hassign : Types p (fun _ => True) (modifyLane fun l => (l.assign id (i.assigned v)).bringIntoScope id) := by
    refine .modifyLane fun l hl hown => ⟨(hl.assign (hv.assigned i)).congr (Lane.value_bringIntoScope ..) rfl, ?_⟩
    show (l.assign id _).memory.Typed p
    rwa [Lane.memory_assign]
  unfold assign
  refine .bind .lane fun l _ => .ite (fun _ => .bind (.throw _) (Q := fun _ => True) fun _ _ => ?_) fun _ => ?_
  all_goals exact .ite (fun _ => .bind hannounce fun _ _ => hassign) fun _ => hassign

theorem types_conclude {o : Outcome} (ho : ∀ e, o = .effect e → e.Fits p) :
    Types p (fun _ => True) (conclude a i o) := by
  cases o with
  | jump b =>
      unfold conclude
      refine .bind .lane fun l hl => .bind (Q := fun l' => l'.HasTypes p ∧ l'.memory.Typed p) (.lift fun l' hok => ?_)
        fun l' hl' => .bind (.modifyLane fun _ _ _ => hl') fun _ _ => types_retire _
      exact ⟨hl.1.jumpTo hok, (Lane.value_jumpTo hok).2 ▸ hl.2⟩
  | leave => exact .modifyLane fun l hl hown => ⟨⟨hl.value, hl.phi⟩, hown⟩
  | effect e =>
      cases ho e rfl with
      | proceed => exact types_retire _
      | kill => exact .modifyLane fun l hl hown => ⟨⟨hl.value, hl.phi⟩, hown⟩
      | assign hv => exact .bind (types_retire _) fun _ _ => types_assign hv

end Step

/-- Whether its step succeeds or not, a lane of a well-typed program stays typed. -/
theorem Lane.Typed.step {l : Lane} {s : Setting} {w : World} (hp : p.UniqueIds) (hwell : p.WellTyped)
    (hs : s.program = p) (h : l.Typed p w) : (l.step s w).lane.Typed p (l.step s w).world := by
  have hexecute : Step.Types p (fun _ => True) (Step.execute s) := by
    unfold Step.execute
    refine .bind .lane fun l _ => .bind (Q := fun r => p.HasInstr r.2) (.lift fun r hr => ?_) fun ⟨a, i⟩ hi => ?_
    · exact hs ▸ Program.hasInstr_of_nextInstr hr
    · refine .bind (.modifyLane fun l hl hown => ⟨⟨hl.value, hl.phi⟩, hown⟩) fun _ _ => ?_
      exact .bind (Step.types_instruction hp hi (hwell i hi)) fun o ho => Step.types_conclude ho
  exact Step.Maintains.step (J := fun l w => l.Typed p w) hexecute h

end Lockstep
