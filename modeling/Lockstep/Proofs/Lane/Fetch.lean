import Lockstep.Proofs.Lane.Access
import Lockstep.Proofs.Lane.Within

set_option autoImplicit false

/-! # Fetching the content of resources

A step asks the host for the content of a resource only if it is not there, and keeps what it gets
(`Lane.fetches_of_step`). Only an access through a handle of a read-write resource changes what is there of
read-write resources (`Lane.uavs_of_step`). -/

namespace Lockstep

theorem Table.contains_insert {κ ν : Type} [DecidableEq κ] (t : Table κ ν) (k k' : κ) (v : ν) :
    (t.insert k v).contains k' = (k' = k || t.contains k') := by
  unfold contains
  rw [get?_insert]
  split
  · next h => simp [h]
  · next h => simp [h]

namespace World

/-- Whether the content of a resource is there. -/
def has (w : World) : ResourceClass × Slot → Bool
  | (.srv, slot) => w.srvs.contains slot
  | (.uav, slot) => w.uavs.contains slot
  | _ => false

/-- On the way from one state to another requests have been made, and of them those for the content of a
    resource only when it was not there. -/
structure Fetches (w w' : World) (asked : List HostRequest) : Prop where
  log : w'.log.toList = w.log.toList ++ asked
  content : ∀ c, asked.countP (·.content? = some c) + (w.has c).toNat ≤ (w'.has c).toNat

namespace Fetches

variable {w w' w'' : World} {asked asked' : List HostRequest}

theorem trans (h : w.Fetches w' asked) (h' : w'.Fetches w'' asked') : w.Fetches w'' (asked ++ asked') where
  log := by rw [h'.log, h.log, List.append_assoc]
  content c := by
    have hc := h.content c
    have hc' := h'.content c
    rw [List.countP_append]
    omega

/-- The content of a resource that is there is not asked for, and that of another at most once. -/
theorem countP_le (h : w.Fetches w' asked) (c : ResourceClass × Slot) :
    asked.countP (·.content? = some c) ≤ if w.has c then 0 else 1 := by
  have hc := h.content c
  have hle := Bool.toNat_le (w'.has c)
  split
  · next hhas =>
      rw [hhas, Bool.toNat_true] at hc
      omega
  · omega

theorem of_has (hlog : w'.log = w.log) (hhas : ∀ c, w.has c → w'.has c) : w.Fetches w' [] where
  log := by rw [hlog, List.append_nil]
  content c := by
    rw [List.countP_nil, Nat.zero_add]
    exact Bool.toNat_le_toNat (hhas c)

theorem refl (w : World) : w.Fetches w [] := .of_has rfl fun _ h => h

theorem setUav (w : World) (slot : Slot) (s : Snapshot) : w.Fetches (w.setUav slot s) [] := by
  refine .of_has rfl fun c hc => ?_
  unfold has at hc ⊢
  split at hc
  · exact hc
  · next slot' => exact (Table.contains_insert ..).trans (by rw [hc, Bool.or_true])
  · cases hc

theorem ask {host : Host} (w : World) {r : HostRequest} (hr : r.content? = none) :
    w.Fetches (w.ask host r).2 [r] where
  log := Array.toList_push
  content c := by
    rw [List.countP_cons_of_neg (by simp [hr]), List.countP_nil, Nat.zero_add]
    rfl

/-- A request for what is not there, after which it is there. -/
theorem fetch {r : HostRequest} {c : ResourceClass × Slot} (hr : r.content? = some c)
    (hlog : w'.log = w.log.push r) (hnone : w.has c = false) (hhas : ∀ c', w'.has c' = (c' = c || w.has c')) :
    w.Fetches w' [r] where
  log := by rw [hlog, Array.toList_push]
  content c' := by
    rw [hhas, List.countP_singleton]
    by_cases hc : c' = c
    · subst hc
      simp [hr, hnone]
    · simp [hr, hc, Ne.symm hc]

theorem srv (host : Host) (w : World) (slot : Slot) : ∃ asked, w.Fetches (w.srv host slot).2 asked := by
  unfold World.srv
  split
  · exact ⟨[], .refl w⟩
  · next hnone =>
      refine ⟨_, fetch (c := (.srv, slot)) rfl rfl (Option.isSome_eq_false_iff.2 (by simp [hnone])) fun c => ?_⟩
      obtain ⟨cls, slot'⟩ := c
      cases cls <;> simp [has, setSrv, World.ask, Table.contains_insert]

theorem uav (host : Host) (w : World) (slot : Slot) : ∃ asked, w.Fetches (w.uav host slot).2 asked := by
  unfold World.uav
  split
  · exact ⟨[], .refl w⟩
  · next hnone =>
      refine ⟨_, fetch (c := (.uav, slot)) rfl rfl (Option.isSome_eq_false_iff.2 (by simp [hnone])) fun c => ?_⟩
      obtain ⟨cls, slot'⟩ := c
      cases cls <;> simp [has, World.setUav, World.ask, Table.contains_insert]

/-- Requests other than for the content of a resource do not matter, and memory does not. -/
theorem allows (host : Host) : Allows host fun w w' => ∃ asked, w.Fetches w' asked where
  refl w := ⟨[], .refl w⟩
  trans := fun ⟨_, h⟩ ⟨_, h'⟩ => ⟨_, h.trans h'⟩
  memory _ _ := ⟨[], .of_has rfl fun _ hc => hc⟩
  ask w {_} hr := ⟨_, .ask w hr⟩

end Fetches

/-- Where nothing is done to read-write resources. -/
theorem allows_uavs (host : Host) : Allows host fun w w' => w'.uavs = w.uavs where
  refl _ := rfl
  trans h h' := h'.trans h
  memory _ _ := rfl
  ask _ _ _ := rfl

theorem uavs_srv (host : Host) (w : World) (slot : Slot) : (w.srv host slot).2.uavs = w.uavs := by
  unfold srv
  split <;> rfl

end World

namespace Lane

variable {l : Lane} {s : Setting} {w : World} {state : StepState}

/-- What every instruction and every outcome does to the shared state is what a step does to it. -/
theorem within_step {R : World → World → Prop} (h : World.Allows s.host R)
    (hinstr : ∀ i, Step.Within R (Step.instruction s i)) : R w (l.step s w).world := by
  have ht := Step.Within.threads h
  have hexecute : Step.Within R (Step.execute s) :=
    ht.bind ht.lane fun l => ht.bind (ht.lift _) fun ⟨a, i⟩ => ht.bind (fun _ => h.refl _) fun _ =>
      ht.bind (hinstr i) fun o => Step.Within.conclude h a o
  have hm := hexecute { lane := l, world := w }
  unfold step
  split
  · exact h.refl w
  · dsimp only
    cases hon : (Step.execute s).on { lane := l, world := w } with
    | mk result m =>
        rw [hon] at hm
        cases result <;> exact hm

/-- A step, whether it succeeds or not, asks for the content of a resource only if it is not there. -/
theorem fetches_of_step (l : Lane) (s : Setting) (w : World) :
    ∃ asked, w.Fetches (l.step s w).world asked := by
  have h := World.Fetches.allows s.host
  refine within_step h fun i => (Step.Within.inherits h fun _ _ => ?_).instruction
  exact (Step.Within.threads h).element (fun _ _ => World.Fetches.srv ..) (fun _ _ => World.Fetches.uav ..)
    fun _ _ _ => ⟨_, .setUav ..⟩

/-- A step that makes no access through a handle of a read-write resource leaves what is there of them as it
    is. -/
theorem uavs_of_step (hok : (l.step s w).result = .ok state)
    (hno : ∀ i op h, l.nextAccess? s.program s.analyses = some (i, op, h) → h.ref.cls ≠ .uav) :
    (l.step s w).world.uavs = w.uavs := by
  by_cases hfin : l.isFinished
  · rw [world_step_of_isFinished hfin]
  obtain ⟨m, hm, hstep, -⟩ := execute_of_step hfin hok
  obtain ⟨a, i, o, m₁, hnext, ho, hconclude⟩ := Step.execute_iff.1 hm
  rw [hstep]
  show m.world.uavs = w.uavs
  rw [Step.world_conclude hconclude]
  have h := World.allows_uavs s.host
  have ht := Step.Within.threads h
  by_cases hacc : ∃ op, i.intrinsic? = some op ∧ op.accesses
  · obtain ⟨op, hop, hacc⟩ := hacc
    obtain ⟨e, rfl, hon⟩ := (Step.instruction_ok_of_accesses hop hacc).1 ho
    rw [Step.onHandle_of_accesses hacc] at hon
    simp only [Step.on_bind_lift_iff, Step.on_bind_handle_iff] at hon
    obtain ⟨id, hid, v, hd, hhandle, hon⟩ := hon
    have hcls := hno i op hd (nextAccess?_eq_some_iff.2 ⟨hfin, a, id, v, hnext, hop, hacc, hid, hhandle⟩)
    obtain ⟨_, _, hnoted⟩ := Step.noted_eq s v.name hd.ref { lane := l.advanced, world := w }
    rw [hnoted] at hon
    have hpart : Step.Within (fun w w' => w'.uavs = w.uavs)
        (if op = .textureLoad ∧ hd.ref.cls = .srv then Step.texture s i op hd else Step.element s i op hd) :=
      ht.ite (ht.texture hd) (ht.element_of_ne (fun slot m => World.uavs_srv ..) hcls)
    exact (congrArg (·.2.world.uavs) hon).symm.trans (hpart _)
  · have hinherits := Step.Within.inherits (i := i) h fun hop h => absurd ⟨_, hop, h⟩ hacc
    exact (congrArg (·.2.world.uavs) ho).symm.trans (hinherits.instruction _)

end Lane

end Lockstep
