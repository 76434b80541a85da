import Lockstep.Proofs.Exec.Derivative
import Lockstep.Proofs.Exec.Lacks
import Lockstep.Proofs.Exec.Mirror

set_option autoImplicit false

/-! # What steps find unassigned

A step of a lane that fails for want of a value executes an instruction for which the value is missing
(`Lane.step_misses`): an operand, what a phi node reads, the allocation that a pointer leads to, or, where
it takes derivatives, an operand in a lane of the quad. Otherwise the host gave the fault as its answer. -/

namespace Lockstep

variable {α β : Type}

/-- The host gives a fault as an answer. -/
inductive Host.Answers (host : Host) (fault : Fault) : Prop
  | math (log : HostLog) (op : Intrinsic) (input : Variable)
      (h : host.answer log (.math op input) = (Except.error fault : Except Fault Variable))
  | sample (log : HostLog) (request : SampleRequest)
      (h : host.answer log (.sample request) = (Except.error fault : Except Fault Variable))

/-- Whether the intrinsic takes derivatives of its operands from the lanes of the quad. -/
def Intrinsic.takesDerivatives (op : Intrinsic) : Bool :=
  op.derivative?.isSome || op.sampleOperands?.any fun at_ => at_.gradients == .implicit

/-- Why an instruction finds an identifier unassigned. -/
inductive Setting.Misses (s : Setting) (i : Instr) (l : Lane) (shared : Memory) (id : Id) : Prop
  | operand (hop : i.op ≠ .phi) (h : l.Lacks i id)
  | phi (hop : i.op = .phi) (hread : Lane.phiOperand l.previousBlock i.args = .ok (some (.ref id)))
      (h : l.phiValues.get? id = none)
  | base (source : Id) (q : Pointer) (hq : l.resolve shared source = .ok q) (hid : q.base = id)
      (h : l.value? id = none)
  | around (op : Intrinsic) (hop : i.intrinsic? = some op) (ha : op.takesDerivatives)
      (h : l.LacksAround i (s.groupWith l) id)
  | answer (h : s.host.Answers (.unassignedRead id))

/-! ## Lanes with one frame -/

namespace Lane

variable {l l' : Lane} {i : Instr} {id : Id}

theorem value_eq_none_of_frame (h : l'.frame = l.frame) (hid : l'.value? id = none) :
    l.value? id = none := by
  have hsome := isSome_value_of_frame h id
  rw [hid] at hsome
  simpa using hsome.symm

theorem Lacks.of_frame (h : l'.Lacks i id) (hl : l'.frame = l.frame) : l.Lacks i id :=
  ⟨h.arg, value_eq_none_of_frame hl h.value⟩

theorem finds_nextInstr {Q : Id → Prop} {p : Program} {as : Analyses} : Finds Q (l.nextInstr p as) := by
  unfold nextInstr
  split
  · exact .error rfl
  · exact .error rfl
  · split
    · exact .error rfl
    · exact .ok _

end Lane

/-- Whether lanes are at different places depends on their frames alone. -/
theorem diverged_of_frame {lanes lanes' : List Lane}
    (h : lanes'.map Lane.frame = lanes.map Lane.frame) : diverged lanes' = diverged lanes := by
  have hframe : ∀ lanes : List Lane, diverged (lanes.map Lane.frame) = diverged lanes := by
    intro lanes
    unfold diverged
    rw [List.filter_map, List.map_map]
    rfl
  rw [← hframe lanes', h, hframe]

theorem Lane.LacksAround.of_frame {s : Setting} {i : Instr} {l l' : Lane} {id : Id}
    (h : l'.LacksAround i (s.groupWith l') id) (hl : l'.frame = l.frame) :
    l.LacksAround i (s.groupWith l) id := by
  have hindex : l'.index = l.index := congrArg (fun k => k.index) hl
  have hstage : l'.stage = l.stage := congrArg (fun k => k.stage) hl
  obtain ⟨harg, hquad, htogether, m, hm, hnone⟩ := h
  refine ⟨harg, ?_, ?_, ?_⟩
  · simpa [isPixelQuad, Setting.groupWith, hstage] using hquad
  · have hlanes : (s.groupWith l').map Lane.frame = (s.groupWith l).map Lane.frame := by
      simp [Setting.groupWith, List.map_set, hindex, hl]
    rwa [diverged_of_frame hlanes] at htogether
  · obtain ⟨k, hk⟩ := List.mem_iff_getElem?.1 hm
    rw [Setting.groupWith, hindex, List.getElem?_set] at hk
    split at hk
    · next hkl =>
        split at hk
        · next hlt =>
            cases hk
            exact ⟨l, List.mem_iff_getElem?.2 ⟨k, by simp [Setting.groupWith, hkl, hkl ▸ hlt]⟩,
              value_eq_none_of_frame hl hnone⟩
        · cases hk
    · next hkl =>
        exact ⟨m, List.mem_iff_getElem?.2 ⟨k, by simpa [Setting.groupWith, hkl] using hk⟩, hnone⟩

namespace Step

/-- Run from a machine, what the computation finds unassigned, if it fails for that, has a property. -/
def FindsAt (Q : Id → Prop) (x : Step α) (m : Machine) : Prop := Lockstep.Finds Q (x.on m).1

/-- What the computation finds unassigned has a property, whatever lane of a given frame it runs on. -/
structure Finds (l₀ : Lane) (Q : Id → Prop) (x : Step α) : Prop where
  findsAt : ∀ m, m.lane.frame = l₀.frame → x.FindsAt Q m

variable {l₀ : Lane} {Q : Id → Prop} {x : Step α} {f : α → Step β} {m : Machine}

theorem FindsAt.bind (hx : x.FindsAt Q m)
    (hf : ∀ a m', x.on m = (.ok a, m') → (f a).FindsAt Q m') : (x >>= f).FindsAt Q m := by
  intro id hid
  rcases error_of_on_bind (Prod.ext_iff.2 ⟨hid, rfl⟩) with h | ⟨a, m₁, ha, h⟩
  · exact hx id (congrArg Prod.fst h)
  · exact hf a m₁ ha id (congrArg Prod.fst h)

theorem FindsAt.lift_bind {x : Except Fault α} (hx : Lockstep.Finds Q x)
    (hf : ∀ a, x = .ok a → (f a).FindsAt Q m) : (liftM x >>= f).FindsAt Q m := by
  refine FindsAt.bind (x := liftM x) hx fun a m' ha => ?_
  rw [on_lift] at ha
  obtain ⟨hx, rfl⟩ := Prod.mk.inj ha
  exact hf a hx

theorem FindsAt.pure (a : α) : (Pure.pure a : Step α).FindsAt Q m := Lockstep.Finds.ok a

theorem FindsAt.throw {fault : Fault} (h : fault.unassigned? = none) :
    (MonadExcept.throw fault : Step α).FindsAt Q m :=
  Lockstep.Finds.error h

theorem FindsAt.lane_bind {f : Lane → Step β} (hf : (f m.lane).FindsAt Q m) :
    (lane >>= f).FindsAt Q m := hf

theorem FindsAt.shared_bind {f : Memory → Step β} (hf : (f m.world.memory).FindsAt Q m) :
    (shared >>= f).FindsAt Q m := hf

namespace Finds

theorem bind (hx : x.Finds l₀ Q) (hk : x.Keeps) (hf : ∀ a, (f a).Finds l₀ Q) :
    (x >>= f).Finds l₀ Q := by
  refine ⟨fun m hm => (hx.findsAt m hm).bind fun a m' ha => (hf a).findsAt m' ?_⟩
  have hframe := hk.keepsAt m
  rw [KeepsAt, ha] at hframe
  exact hframe.trans hm

/-- The rest may use what the lane is. -/
theorem lane_bind {f : Lane → Step β} (hf : ∀ l, l.frame = l₀.frame → (f l).Finds l₀ Q) :
    (lane >>= f).Finds l₀ Q :=
  ⟨fun m hm => (hf m.lane hm).findsAt m hm⟩

/-- The rest may use that the first part succeeds. -/
theorem lift_bind {x : Except Fault α} (hx : Lockstep.Finds Q x)
    (hf : ∀ a, x = .ok a → (f a).Finds l₀ Q) : (liftM x >>= f).Finds l₀ Q :=
  ⟨fun m hm => .lift_bind hx fun a ha => (hf a ha).findsAt m hm⟩

theorem lift {x : Except Fault α} (hx : Lockstep.Finds Q x) : (liftM x : Step α).Finds l₀ Q :=
  ⟨fun _ _ => hx⟩

theorem pure (a : α) : (Pure.pure a : Step α).Finds l₀ Q := ⟨fun _ _ => .ok _⟩

theorem throw {fault : Fault} (h : fault.unassigned? = none) :
    (MonadExcept.throw fault : Step α).Finds l₀ Q :=
  ⟨fun _ _ => .error h⟩

theorem ite {c : Prop} [Decidable c] {x y : Step α} (hx : c → x.Finds l₀ Q)
    (hy : ¬ c → y.Finds l₀ Q) : (if c then x else y).Finds l₀ Q := by
  split
  · next hc => exact hx hc
  · next hc => exact hy hc

/-- A computation that is given up on a condition. -/
theorem guard {c : Prop} [Decidable c] {fault : Fault} {x : Unit → Step α}
    (h : fault.unassigned? = none) (hx : (x ()).Finds l₀ Q) :
    (if c then MonadExcept.throw fault >>= x else x ()).Finds l₀ Q :=
  .ite (fun _ => ⟨fun _ _ => .error h⟩) fun _ => hx

theorem shared : Step.shared.Finds l₀ Q := ⟨fun _ _ => .ok _⟩

theorem note (c : Change) : (Step.note c).Finds l₀ Q := ⟨fun _ _ => .ok _⟩

theorem modifyLane (f : Lane → Lane) : (Step.modifyLane f).Finds l₀ Q := ⟨fun _ _ => .ok _⟩

theorem modifyWorld (f : World → World) : (Step.modifyWorld f).Finds l₀ Q := ⟨fun _ _ => .ok _⟩

theorem onWorld (f : World → α × World) : (Step.onWorld f).Finds l₀ Q := ⟨fun _ _ => .ok _⟩

end Finds

section

variable {s : Setting} {i : Instr} {op : Intrinsic} {shared : Memory} {l : Lane}

/-! ## Operands and handles -/

theorem finds_noteUse (name : String) (ref : ResourceRef) : (noteUse s name ref).Finds l₀ Q := by
  unfold noteUse
  refine .ite (fun _ => .lane_bind fun l _ => .ite (fun _ => .note _) fun _ => ?_) fun _ => .pure _
  exact .bind (.modifyLane _) (.modifyLane fun _ => rfl) fun _ => .note _

theorem finds_copyReference (source id : Id) : (copyReference source id).Finds l₀ Q := by
  unfold copyReference
  refine .lane_bind fun l _ => ?_
  split
  · exact .modifyLane _
  · exact .pure _

theorem finds_setProperties (id : Id) (properties : HandleProperties) :
    (setProperties id properties).Finds l₀ Q := by
  unfold setProperties
  refine .lane_bind fun l _ => .bind (.modifyLane _) (.modifyLane fun _ => rfl) fun _ => ?_
  exact .ite (fun _ => .throw rfl) fun _ => .pure _

theorem finds_renderTargetCount : (renderTargetCount s i op).Finds l₀ (s.Misses i l₀ shared) := by
  unfold renderTargetCount
  refine .lift_bind Instr.finds_blank fun ⟨id, result⟩ _ => .lane_bind fun l _ => ?_
  exact .bind (.onWorld _) (.ask ..) fun info => .pure _

section

variable (hop : i.op ≠ .phi)
include hop

/-- What a lane of the frame lacks, the instruction misses. -/
theorem misses_of_lacks {y : Except Fault α} (hl : l.frame = l₀.frame)
    (hy : Lockstep.Finds (l.Lacks i) y) : Lockstep.Finds (s.Misses i l₀ shared) y :=
  hy.imp fun _ h => .operand hop (h.of_frame hl)

theorem finds_arg (index : Nat) : (arg i index).Finds l₀ (s.Misses i l₀ shared) :=
  .lane_bind fun _ hl => .lift (misses_of_lacks hop hl (Lane.finds_arg index))

theorem finds_argWord32 (index : Nat) : (argWord32 i index).Finds l₀ (s.Misses i l₀ shared) :=
  .lane_bind fun _ hl => .lift (misses_of_lacks hop hl (Lane.finds_argWord32 index))

theorem finds_handle {id : Id} (hid : .ref id ∈ i.args) :
    (handle s id).Finds l₀ (s.Misses i l₀ shared) := by
  unfold handle
  refine .lane_bind fun l hl => .lift_bind (misses_of_lacks hop hl (Lane.finds_handle _ hid)) ?_
  exact fun ⟨_, _⟩ _ => .bind (finds_noteUse _ _) (keeps_noteUse ..) fun _ => .pure _

theorem finds_createHandleFromHeap : (createHandleFromHeap s i).Finds l₀ (s.Misses i l₀ shared) := by
  unfold createHandleFromHeap
  refine .lift_bind Instr.finds_resultId fun id _ => ?_
  refine .bind (finds_argWord32 hop _) (.argWord32 ..) fun index => ?_
  refine .bind (finds_argWord32 hop _) (.argWord32 ..) fun ofSamplers => ?_
  refine .bind (.onWorld _) (.ask ..) fun ref => .bind (.onWorld _) (.ask ..) fun access => ?_
  exact .bind (.modifyLane _) (.modifyLane fun _ => rfl) fun _ => .pure _

theorem finds_annotateHandle : (annotateHandle i).Finds l₀ (s.Misses i l₀ shared) := by
  unfold annotateHandle
  refine .lift_bind Instr.finds_resultId fun id _ => .lift_bind (Instr.finds_argId 0) fun source _ => ?_
  refine .bind (finds_arg hop 0) (.arg ..) fun v => ?_
  refine .bind (finds_copyReference _ _) ((threads_keeps s).copyReference ..) fun _ => ?_
  refine .bind (finds_arg hop 1) (.arg ..) fun words => ?_
  exact .bind (finds_setProperties _ _) ((threads_keeps s).setProperties ..) fun _ => .pure _

/-! ## Resources -/

theorem finds_loadConstants : (loadConstants s i).Finds l₀ (s.Misses i l₀ shared) := by
  unfold loadConstants
  refine .lift_bind Instr.finds_resultId fun id _ => .lift_bind (Instr.finds_argId 0) fun source hid => ?_
  refine .bind (finds_handle hop (Mirror.mem_args_of_argId hid)) ((threads_keeps s).handle _) fun h => ?_
  refine .guard rfl ?_
  split
  · exact .throw rfl
  · refine .bind (finds_argWord32 hop 1) (.argWord32 ..) fun register => ?_
    split
    · exact .pure _
    · exact .ite (fun _ => .pure _) fun _ => .pure _

theorem finds_loadSource (ref : ResourceRef) :
    (loadSource s i op ref).Finds l₀ (s.Misses i l₀ shared) := by
  unfold loadSource
  split
  · refine .lane_bind fun l hl => ?_
    refine .lift_bind (misses_of_lacks hop hl (Lane.finds_address _ _)) fun address _ => ?_
    exact .bind (.onWorld _) (.srv ..) fun _ => .pure _
  · refine .bind (.onWorld _) (.uav ..) fun snapshot => .lane_bind fun l hl => ?_
    exact .lift_bind (misses_of_lacks hop hl (Lane.finds_address _ _)) fun _ _ => .pure _
  · exact .throw rfl

theorem finds_loadElement (h : Handle) : (loadElement s i op h).Finds l₀ (s.Misses i l₀ shared) := by
  unfold loadElement
  refine .lift_bind Instr.finds_resultId fun id _ => ?_
  refine .lift_bind Instr.finds_loadedTypes fun ⟨ty, columns⟩ _ => ?_
  refine .bind (finds_loadSource hop _) ((threads_keeps s).loadSource (.srv s) (.uav s) _) ?_
  refine fun ⟨snapshot, address⟩ => ?_
  dsimp only
  split
  · exact .pure _
  · exact .pure _

theorem finds_storeElement (h : Handle) : (storeElement s i op h).Finds l₀ (s.Misses i l₀ shared) := by
  unfold storeElement
  refine .guard rfl (.lane_bind fun l hl => ?_)
  refine .lift_bind (misses_of_lacks hop hl (Lane.finds_storedValues _)) fun values _ => ?_
  split
  · exact .throw rfl
  · refine .bind (.onWorld _) (.uav ..) fun snapshot => .lane_bind fun l hl => ?_
    refine .lift_bind (misses_of_lacks hop hl (Lane.finds_address _ _)) fun address _ => ?_
    dsimp only
    split
    · exact .bind (.modifyWorld _) (.setUav ..) fun _ => .pure _
    · exact .pure _

theorem finds_atomicChange (bits : Nat) : (atomicChange i op bits).Finds l₀ (s.Misses i l₀ shared) := by
  unfold atomicChange
  refine .ite (fun _ => .bind (finds_argWord32 hop 1) (.argWord32 ..) fun number => ?_) fun _ => ?_
  · dsimp only
    split
    · exact .throw rfl
    · exact .bind (finds_arg hop 5) (.arg ..) fun _ => .pure _
  · exact .bind (finds_arg hop 5) (.arg ..) fun _ => .bind (finds_arg hop 4) (.arg ..) fun _ => .pure _

theorem finds_updateElement (h : Handle) : (updateElement s i op h).Finds l₀ (s.Misses i l₀ shared) := by
  unfold updateElement
  refine .guard rfl (.lift_bind Instr.finds_blank fun ⟨id, result⟩ _ => ?_)
  refine .bind (finds_atomicChange hop _) ((threads_keeps s).atomicChange _) fun f => ?_
  refine .bind (.onWorld _) (.uav ..) fun snapshot => .lane_bind fun l hl => ?_
  refine .lift_bind (misses_of_lacks hop hl (Lane.finds_address _ _)) fun address _ => ?_
  dsimp only
  split
  · exact .bind (.modifyWorld _) (.setUav ..) fun _ => .pure _
  · exact .pure _

theorem finds_renderTargetPosition : (renderTargetPosition s i op).Finds l₀ (s.Misses i l₀ shared) := by
  unfold renderTargetPosition
  refine .lift_bind Instr.finds_resultId fun id _ => .lane_bind fun l _ => ?_
  refine .bind (.onWorld _) (.ask ..) fun info => ?_
  exact .bind (finds_argWord32 hop 0) (.argWord32 ..) fun index => .pure _

theorem finds_texturePosition (h : Handle) :
    (texturePosition s i op h).Finds l₀ (s.Misses i l₀ shared) := by
  unfold texturePosition
  refine .lift_bind Instr.finds_resultId fun id _ => .lane_bind fun l _ => ?_
  refine .bind (.onWorld _) (.ask ..) fun info => ?_
  exact .bind (finds_argWord32 hop 1) (.argWord32 ..) fun index => .pure _

theorem finds_dimensions (h : Handle) : (dimensions s i h).Finds l₀ (s.Misses i l₀ shared) := by
  unfold dimensions
  refine .lift_bind Instr.finds_resultId fun id _ => .lane_bind fun l hl => ?_
  refine .lift_bind (misses_of_lacks hop hl (Lane.finds_argWord32OrZero _)) fun mip _ => ?_
  exact .lane_bind fun l _ => .bind (.onWorld _) (.ask ..) fun dims => .pure _

end

/-! ## What the host carries out -/

section

variable (hop : i.intrinsic? = some op)
include hop

theorem op_ne_phi : i.op ≠ .phi := by
  rw [(i.eq_of_intrinsic? hop).1]
  exact nofun

theorem finds_transcendental : (transcendental s i op).Finds l₀ (s.Misses i l₀ shared) := by
  unfold transcendental
  refine .lift_bind Instr.finds_blank fun ⟨id, result⟩ _ => ?_
  refine .bind (finds_arg (op_ne_phi hop) 0) (.arg ..) fun input => ?_
  refine ⟨fun m _ => FindsAt.bind (fun id hid => nomatch hid) fun answered m' hask => ?_⟩
  cases hask
  refine .lift_bind (fun id hid => .answer (.math _ _ _ hid)) fun answer _ => ?_
  exact FindsAt.pure _

theorem finds_textureRequest (ref : ResourceRef) :
    (textureRequest s i op ref).Finds l₀ (s.Misses i l₀ shared) := by
  have hne := op_ne_phi hop
  unfold textureRequest
  refine .lane_bind fun l _ => ?_
  dsimp only
  split
  · exact .lane_bind fun l hl => .lift (misses_of_lacks hne hl (Lane.finds_loadRequest _))
  · next at_ hat =>
      refine .lift_bind (Instr.finds_argId 1) fun id hid => ?_
      refine .bind (finds_handle hne (Mirror.mem_args_of_argId hid)) ((threads_keeps s).handle _) ?_
      refine fun sampler => .guard rfl (.lane_bind fun l hl => .lift ?_)
      refine (Lane.finds_sampleRequest _ _ _ _).imp fun id h => ?_
      rcases h with h | ⟨himplicit, h⟩
      · exact .operand hne (h.of_frame hl)
      · exact .around op hop (by simp [Intrinsic.takesDerivatives, hat, himplicit]) (h.of_frame hl)

theorem finds_texture (h : Handle) : (texture s i op h).Finds l₀ (s.Misses i l₀ shared) := by
  have hne := op_ne_phi hop
  unfold texture
  refine .lift_bind Instr.finds_resultId fun id _ => .guard rfl ?_
  refine .lift_bind (Instr.finds_sampleResult id) fun result _ => ?_
  refine .bind (finds_textureRequest hop _) ((threads_keeps s).textureRequest _) fun request => ?_
  refine ⟨fun m hm => FindsAt.bind (fun id hid => nomatch hid) fun answered m' hask => ?_⟩
  cases hask
  refine .lift_bind (fun id hid => .answer (.sample _ _ hid)) fun answer _ => .lane_bind ?_
  refine .lift_bind (misses_of_lacks hne hm (Lane.finds_chooseLod _ _)) fun v _ => ?_
  exact FindsAt.pure _

theorem finds_onHandle : (onHandle s i op).Finds l₀ (s.Misses i l₀ shared) := by
  have hne := op_ne_phi hop
  unfold onHandle
  refine .lift_bind (Instr.finds_argId 0) fun id hid => ?_
  refine .bind (finds_handle hne (Mirror.mem_args_of_argId hid)) ((threads_keeps s).handle _) fun h => ?_
  split
  · exact finds_dimensions hne h
  · exact finds_texturePosition hne h
  · exact .ite (fun _ => finds_texture hop h) fun _ => finds_loadElement hne h
  · exact finds_loadElement hne h
  · exact finds_loadElement hne h
  · exact finds_storeElement hne h
  · exact finds_storeElement hne h
  · exact finds_storeElement hne h
  · exact finds_updateElement hne h
  · exact finds_updateElement hne h
  · exact finds_texture hop h

theorem finds_effect : (effect s i op).Finds l₀ (s.Misses i l₀ shared) := by
  have hne := op_ne_phi hop
  have hthrow : (Fault.unsupportedIntrinsic op).unassigned? = none := rfl
  unfold effect
  refine .lane_bind fun l hl => ?_
  split
  all_goals with_reducible first
    | exact .lift (misses_of_lacks hne hl Lane.finds_loadInput)
    | exact .lift (misses_of_lacks hne hl (Lane.finds_storeOutput _))
    | exact .lift (misses_of_lacks hne hl (Lane.finds_barrier _))
    | exact .lift (misses_of_lacks hne hl Lane.finds_discard)
    | exact .lift (misses_of_lacks hne hl (Lane.finds_createHandle _))
    | exact finds_createHandleFromHeap hne
    | exact finds_annotateHandle hne
    | exact finds_loadConstants hne
    | exact finds_renderTargetCount
    | exact finds_renderTargetPosition hne
    | exact finds_onHandle hop
    | exact .throw hthrow

/-- What the call of an intrinsic finds unassigned. -/
theorem finds_intrinsic : (intrinsic s i op).Finds l₀ (s.Misses i l₀ shared) := by
  have hne := op_ne_phi hop
  unfold intrinsic
  refine .lane_bind fun l hl => .ite (fun _ => finds_transcendental hop) fun _ => ?_
  split
  · next x _ _ hmath => exact .lift (misses_of_lacks hne hl (Lane.finds_math hmath))
  · exact .lift (misses_of_lacks hne hl (Lane.finds_readBuiltin _ _))
  · next axis fine _ _ hd =>
      refine .lift ((Lane.finds_derivativeOf _ axis fine).imp fun id h => ?_)
      exact .around op hop (by simp [Intrinsic.takesDerivatives, hd]) (h.of_frame hl)
  · exact finds_effect hop

end

/-! ## Memory -/

theorem finds_readThrough (p : Pointer) : (readThrough p).Finds l₀ Q := by
  unfold readThrough
  exact .lane_bind fun l _ => .bind .shared .shared fun shared => .lift (Memory.finds_read _ _)

theorem finds_writeThrough (p : Pointer) (bytes : Bytes) : (writeThrough p bytes).Finds l₀ Q := by
  unfold writeThrough
  refine .lane_bind fun l _ => .ite (fun _ => .lane_bind fun l _ => ?_) fun _ => ?_
  · exact .lift_bind (Memory.finds_write _ _ _) fun memory _ => .modifyLane _
  · exact .bind .shared .shared fun memory =>
      .lift_bind (Memory.finds_write _ _ _) fun memory _ => .modifyWorld _

theorem finds_overwrite (id : Id) (after : Variable) : (overwrite id after).Finds l₀ Q := by
  unfold overwrite
  exact .lane_bind fun l _ => .ite (fun _ => .bind (.note _) (.note _) fun _ => .modifyLane _) fun _ =>
    .pure _

theorem findsAt_assigned {id : Id} (h : m.lane.value? id = none → Q id) : (assigned id).FindsAt Q m := by
  unfold assigned
  refine .lane_bind ?_
  split
  · exact FindsAt.pure _
  · next hnone =>
      rintro _ ⟨⟩
      exact h hnone

/-- A store finds the allocation unassigned, or the pointer. -/
theorem findsAt_store {id : Id} {p : Pointer} (bytes : Bytes) (hid : m.lane.value? id = none → Q id)
    (hbase : m.lane.value? p.base = none → Q p.base) : (store id p bytes).FindsAt Q m := by
  unfold store
  refine .bind ((finds_writeThrough p bytes).findsAt m rfl) fun _ m₁ hwrite => ?_
  have hframe : m₁.lane.frame = m.lane.frame := by
    have h := (keeps_writeThrough p bytes).keepsAt m
    rwa [KeepsAt, hwrite] at h
  refine .lane_bind (.shared_bind ?_)
  refine .bind (findsAt_assigned fun h => hbase (Lane.value_eq_none_of_frame hframe h)) fun v m₂ hv => ?_
  obtain ⟨rfl, hvalue⟩ := assigned_ok hv
  refine .lift_bind (Memory.finds_reload _ _ _) fun after _ => ?_
  split
  · exact FindsAt.pure _
  · refine .bind ((finds_overwrite p.base after).findsAt _ rfl) fun _ m₃ hover => ?_
    have hframe' : m₃.lane.frame = m₂.lane.frame := by
      have h := keepsAt_overwrite after (Option.isSome_of_eq_some hvalue)
      rwa [KeepsAt, hover] at h
    have hassigned : (assigned id).FindsAt Q m₃ := findsAt_assigned fun h =>
      hid (Lane.value_eq_none_of_frame (hframe'.trans hframe) h)
    refine hassigned.bind fun w m₄ _ => ?_
    refine .bind ((finds_readThrough p).findsAt _ rfl) fun _ m₅ _ => FindsAt.pure _

theorem finds_pointerArg : (pointerArg i).Finds l₀ Q := by
  unfold pointerArg
  refine .lift_bind (Instr.finds_argId 0) fun id _ => .lane_bind fun l _ => ?_
  exact .bind .shared .shared fun shared => .lift_bind (Lane.finds_resolve _ _) fun p _ => .pure _

theorem findsAt_storeArg {m : Machine} (hop : i.op ≠ .phi) :
    (storeArg i).FindsAt (s.Misses i m.lane m.world.memory) m := by
  unfold storeArg
  refine .bind (finds_pointerArg.findsAt m rfl) fun ⟨id, p⟩ m₁ hp => ?_
  obtain ⟨rfl, hid, hresolve⟩ := pointerArg_ok hp
  refine .bind ((finds_arg hop 1).findsAt _ rfl) fun v m₂ hv => ?_
  obtain ⟨rfl, -⟩ := arg_ok hv
  refine .bind (findsAt_store _ (fun h => ?_) fun h => ?_) fun ⟨_, _⟩ m₃ _ => FindsAt.pure _
  · exact .operand hop ⟨Mirror.mem_args_of_argId hid, h⟩
  · exact .base id p hresolve rfl h

theorem findsAt_atomic {m : Machine} (hop : i.op ≠ .phi) :
    (atomic i).FindsAt (s.Misses i m.lane m.world.memory) m := by
  unfold atomic
  refine .bind (finds_pointerArg.findsAt m rfl) fun ⟨id, p⟩ m₁ hp => ?_
  obtain ⟨rfl, hid, hresolve⟩ := pointerArg_ok hp
  refine .bind ((finds_arg hop 1).findsAt _ rfl) fun v m₂ hv => ?_
  obtain ⟨rfl, -⟩ := arg_ok hv
  refine .bind ((finds_readThrough p).findsAt _ rfl) fun bytes m₃ hbytes => ?_
  obtain ⟨rfl, -⟩ := readThrough_ok hbytes
  dsimp only
  split
  · exact FindsAt.throw rfl
  · refine .bind (findsAt_store _ (fun h => ?_) fun h => ?_) fun ⟨target, w⟩ m₄ _ => ?_
    · exact .operand hop ⟨Mirror.mem_args_of_argId hid, h⟩
    · exact .base id p hresolve rfl h
    · dsimp only
      split
      · exact FindsAt.pure _
      · exact .bind ((finds_overwrite target w).findsAt m₄ rfl) fun _ _ _ => FindsAt.pure _

theorem findsAt_memory {m : Machine} (hop : i.op ≠ .phi) :
    (memory i).FindsAt (s.Misses i m.lane m.world.memory) m := by
  have hload : (load i).FindsAt (s.Misses i m.lane m.world.memory) m := by
    unfold load
    refine .lift_bind Instr.finds_blank fun ⟨id, result⟩ _ => ?_
    refine .bind (finds_pointerArg.findsAt m rfl) fun ⟨_, p⟩ m₁ _ => ?_
    exact .bind ((finds_readThrough p).findsAt m₁ rfl) fun _ _ _ => FindsAt.pure _
  unfold memory
  split
  · unfold alloca
    refine .lift_bind Instr.finds_resultId fun id _ => .lane_bind ?_
    exact .lift_bind (Memory.finds_allocateFor _ _ _ _ _) fun ⟨_, _⟩ _ => FindsAt.pure _
  · exact hload
  · exact hload
  · exact findsAt_storeArg hop
  · exact findsAt_storeArg hop
  · unfold elementPointer
    refine .lift_bind Instr.finds_resultId fun id _ => .lane_bind (.shared_bind ?_)
    refine .lift_bind (misses_of_lacks hop rfl (Lane.finds_derive _)) fun p _ => ?_
    exact .bind ((finds_readThrough p).findsAt m rfl) fun _ _ _ => FindsAt.pure _
  · exact findsAt_atomic hop

/-! ## All instructions -/

theorem findsAt_call (hop : i.op = .call) : (call s i).FindsAt (s.Misses i m.lane m.world.memory) m := by
  unfold call
  split
  · next op hcallee =>
      have hop : i.intrinsic? = some op := by
        unfold Instr.intrinsic?
        rw [hop, hcallee]
      exact (finds_intrinsic hop).findsAt m rfl
  · exact FindsAt.pure _
  · exact FindsAt.pure _
  · exact FindsAt.throw rfl
  · exact FindsAt.throw rfl

theorem findsAt_compute : (compute s i).FindsAt (s.Misses i m.lane m.world.memory) m := by
  have hlift : ∀ {x : Except Fault Effect}, i.op ≠ .phi → Lockstep.Finds (m.lane.Lacks i) x →
      (liftM x : Step Effect).FindsAt (s.Misses i m.lane m.world.memory) m := fun hne hx =>
    misses_of_lacks hne rfl hx
  have hthrow : (Fault.unsupportedOpcode i.op).unassigned? = none := rfl
  unfold compute
  refine .lane_bind ?_
  split
  all_goals rename_i heq
  case h_4 =>
    exact Lane.finds_phi.imp fun id h => .phi heq h.1 h.2
  all_goals
    have hne : i.op ≠ .phi := by
      rw [heq]
      exact nofun
    with_reducible first
      | apply hlift hne Lane.finds_select
      | apply hlift hne Lane.finds_arithmetic
      | apply hlift hne Lane.finds_compare
      | apply hlift hne Lane.finds_cast
      | apply hlift hne Lane.finds_vector
      | exact findsAt_call heq
      | exact findsAt_memory hne
      | exact FindsAt.pure _
      | exact FindsAt.throw hthrow

/-- What an instruction finds unassigned is missing for it. -/
theorem findsAt_instruction : (instruction s i).FindsAt (s.Misses i m.lane m.world.memory) m := by
  unfold instruction
  split
  · next hi =>
      have hne : i.op ≠ .phi := by
        intro hphi
        rw [Instr.isTerminator, hphi] at hi
        cases hi
      exact misses_of_lacks hne rfl Lane.finds_terminate
  · exact .bind findsAt_compute fun e m' _ => FindsAt.pure _

/-! ## Steps -/

variable {a : FunctionAnalysis}

theorem findsAt_assign {id : Id} {v : Variable} {report : Bool} : (assign i id v report).FindsAt Q m := by
  unfold assign
  refine .lane_bind ?_
  by_cases hplace : (!m.lane.hasPlace id) = true
  · rw [if_pos hplace]
    exact Lockstep.Finds.error rfl
  · rw [if_neg hplace]
    cases report with
    | false => exact Lockstep.Finds.ok _
    | true =>
        refine .bind (fun id hid => ?_) fun _ m' _ => (Finds.modifyLane _).findsAt m' rfl
        cases (congrArg Prod.fst (on_announce ..)).symm.trans hid

theorem findsAt_retire {keep : Option Id} : (retire a keep).FindsAt Q m := by
  intro id hid
  cases (congrArg Prod.fst (on_retire ..)).symm.trans hid

theorem findsAt_conclude {o : Outcome} : (conclude a i o).FindsAt Q m := by
  cases o with
  | effect e =>
      cases e with
      | proceed => exact findsAt_retire
      | assign id v report => exact .bind findsAt_retire fun _ m' _ => findsAt_assign
      | kill => exact (Finds.modifyLane _).findsAt m rfl
  | jump block =>
      refine .lane_bind (.lift_bind ?_ fun l' _ => ?_)
      · unfold Lane.jumpTo
        split
        · exact Lockstep.Finds.error rfl
        · exact Lockstep.Finds.ok _
      · exact .bind ((Finds.modifyLane _).findsAt m rfl) fun _ m' _ => findsAt_retire
  | leave => exact (Finds.modifyLane _).findsAt m rfl

theorem findsAt_execute : (execute s).FindsAt (fun id => ∃ a i,
    m.lane.nextInstr s.program s.analyses = .ok (a, i) ∧
      s.Misses i m.lane.advanced m.world.memory id) m := by
  unfold execute
  refine .lane_bind (.lift_bind Lane.finds_nextInstr fun ⟨a, i⟩ hnext => ?_)
  refine .bind ((Finds.modifyLane _).findsAt m rfl) fun _ m₁ hadvance => ?_
  cases hadvance
  refine .bind (fun id hid => ?_) fun o m₂ _ => findsAt_conclude
  exact ⟨a, i, hnext, findsAt_instruction id hid⟩

end

end Step

/-- A step that fails for want of a value executes an instruction for which it is missing. -/
theorem Lane.step_misses {l : Lane} {s : Setting} {w : World} {id : Id}
    (h : (l.step s w).result = .error (.unassignedRead id)) :
    ¬ l.isFinished ∧ ∃ a i, l.nextInstr s.program s.analyses = .ok (a, i) ∧
      s.Misses i l.advanced w.memory id := by
  unfold step at h
  by_cases hl : l.isFinished
  · rw [if_pos hl] at h
    cases h
  · rw [if_neg hl] at h
    refine ⟨hl, ?_⟩
    split at h
    · next fault m hm =>
        cases h
        exact Step.findsAt_execute id (congrArg Prod.fst hm)
    · cases h

end Lockstep
