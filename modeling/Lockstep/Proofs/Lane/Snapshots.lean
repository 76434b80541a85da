import Lockstep.Proofs.Lane.Holdings
import Lockstep.Proofs.Lane.Barrier

set_option autoImplicit false

/-! # Snapshots of read-write resources

A snapshot that has been fetched stays as it is until an instruction writes to its slot. Only stores to
resources and atomic updates of resources do, and each writes to the slot of its handle
(`Lane.keeps_of_step`). -/

namespace Lockstep

namespace World

/-- The snapshots of read-write resources that are there stay as they are, but for some slots. -/
structure Keeps (written : Slot → Prop) (w w' : World) : Prop where
  uav : ∀ {slot snapshot}, ¬ written slot → w.uavs.get? slot = some snapshot →
    w'.uavs.get? slot = some snapshot

variable {written written' : Slot → Prop} {w w' w'' : World}

theorem Keeps.of_uavs_eq (h : w'.uavs = w.uavs) : w.Keeps written w' :=
  ⟨fun _ hs => h ▸ hs⟩

theorem Keeps.trans (h : w.Keeps written w') (h' : w'.Keeps written w'') : w.Keeps written w'' :=
  ⟨fun hno hs => h'.uav hno (h.uav hno hs)⟩

theorem Keeps.imp (h : w.Keeps written w') (himp : ∀ {slot}, written slot → written' slot) :
    w.Keeps written' w' :=
  ⟨fun hno hs => h.uav (fun hwritten => hno (himp hwritten)) hs⟩

theorem keeps_srv (host : Host) (w : World) (slot : Slot) : w.Keeps written (w.srv host slot).2 := by
  unfold srv
  split <;> exact .of_uavs_eq rfl

/-- What is fetched is put where no snapshot was. -/
theorem keeps_uav (host : Host) (w : World) (slot : Slot) : w.Keeps written (w.uav host slot).2 := by
  unfold uav
  split
  · exact .of_uavs_eq rfl
  · next hnone =>
      refine ⟨fun {slot' snapshot} _ hs => ?_⟩
      have hne : slot' ≠ slot := by
        rintro rfl
        rw [hnone] at hs
        cases hs
      exact (Table.get?_insert_of_ne _ hne _).trans hs

theorem keeps_setUav (w : World) (slot : Slot) (snapshot : Snapshot) :
    w.Keeps (· = slot) (w.setUav slot snapshot) :=
  ⟨fun hne hs => (Table.get?_insert_of_ne _ hne _).trans hs⟩

end World

theorem Intrinsic.eq_of_writesResource {op : Intrinsic} (h : op.writesResource) :
    (op = .bufferStore ∨ op = .rawBufferStore ∨ op = .textureStore) ∨
      (op = .atomicBinOp ∨ op = .atomicCompareExchange) := by
  unfold writesResource at h
  split at h <;> simp_all

theorem Intrinsic.accesses_of_writesResource {op : Intrinsic} (h : op.writesResource) : op.accesses := by
  rcases eq_of_writesResource h with (rfl | rfl | rfl) | (rfl | rfl) <;> rfl

namespace Step

variable {s : Setting} {i : Instr} {op : Intrinsic} {m m' : Machine} {e : Effect} {o : Outcome}
  {hd : Handle} {written : Slot → Prop} {w₀ : World}

/-! ## Instructions that write to a resource -/

theorem world_noteUse {name : String} {ref : ResourceRef} {u : Unit}
    (h : (noteUse s name ref).on m = (.ok u, m')) : m'.world = m.world := by
  obtain ⟨_, _, hnote⟩ := exists_on_noteUse s name ref m
  cases hnote.symm.trans h
  rfl

/-- The handle that an instruction works on is found in the lane, and the world stays as it is. -/
theorem handle_ok {id : Id} (h : (handle s id).on m = (.ok hd, m')) :
    (∃ v, m.lane.handle s.program id = .ok (v, hd)) ∧ m'.world = m.world := by
  unfold handle at h
  obtain ⟨l, _, hlane, h₁⟩ := ok_of_on_bind h
  cases hlane
  obtain ⟨⟨v, hd'⟩, _, hlift, h₂⟩ := ok_of_on_bind h₁
  obtain ⟨rfl, hv⟩ := ok_of_lift hlift
  obtain ⟨u, m₁, hnote, h₃⟩ := ok_of_on_bind h₂
  cases h₃
  exact ⟨⟨v, hv⟩, world_noteUse hnote⟩

/-- To look up a writable resource and an address in it changes nothing but what is cached of it. -/
theorem fetch_ok {α : Type} {slot : Slot} {first : Nat} {f : Snapshot → ElementAddress → Step α} {r : α}
    (h : (do
      let snapshot ← uav s slot
      f snapshot (← (← lane).address i first snapshot.isTexture) : Step α).on m = (.ok r, m')) :
    ∃ snapshot address m₁, m.world.Keeps (· = slot) m₁.world ∧
      (f snapshot address).on m₁ = (.ok r, m') := by
  obtain ⟨snapshot, _, hfetch, h₁⟩ := ok_of_on_bind h
  cases hfetch
  obtain ⟨l, _, hlane, h₂⟩ := ok_of_on_bind h₁
  cases hlane
  obtain ⟨address, _, haddress, h₃⟩ := ok_of_on_bind h₂
  obtain ⟨rfl, -⟩ := ok_of_lift haddress
  exact ⟨_, _, _, World.keeps_uav .., h₃⟩

theorem storeElement_ok (h : (storeElement s i op hd).on m = (.ok e, m')) :
    hd.ref.cls = .uav ∧ m.world.Keeps (· = hd.ref.slot) m'.world := by
  unfold storeElement at h
  obtain ⟨hcls, h₁⟩ := ok_of_guard h
  refine ⟨of_not_not hcls, ?_⟩
  obtain ⟨l, _, hlane, h₂⟩ := ok_of_on_bind h₁
  cases hlane
  obtain ⟨values, m₁, hvalues, h₃⟩ := ok_of_on_bind h₂
  obtain ⟨rfl, -⟩ := ok_of_lift hvalues
  split at h₃
  · cases h₃
  · obtain ⟨snapshot, address, m₂, hfetched, h₄⟩ := fetch_ok h₃
    dsimp only at h₄
    split at h₄
    · obtain ⟨_, _, hset, h₅⟩ := ok_of_on_bind h₄
      cases hset
      cases h₅
      exact hfetched.trans (World.keeps_setUav ..)
    · cases h₄
      exact hfetched

theorem world_atomicChange {bits : Nat} {change : UInt64 → UInt64}
    (h : (atomicChange i op bits).on m = (.ok change, m')) : m' = m := by
  unfold atomicChange at h
  split at h
  · obtain ⟨number, _, hnumber, h₁⟩ := ok_of_on_bind h
    obtain ⟨l, _, hlane, hlift⟩ := ok_of_on_bind hnumber
    cases hlane
    obtain ⟨rfl, -⟩ := ok_of_lift hlift
    dsimp only at h₁
    split at h₁
    · cases h₁
    · obtain ⟨operand, _, hoperand, h₂⟩ := ok_of_on_bind h₁
      cases h₂
      exact (arg_ok hoperand).1
  · obtain ⟨replacement, _, hreplacement, h₁⟩ := ok_of_on_bind h
    obtain ⟨rfl, -⟩ := arg_ok hreplacement
    obtain ⟨expected, _, hexpected, h₂⟩ := ok_of_on_bind h₁
    cases h₂
    exact (arg_ok hexpected).1

theorem updateElement_ok (h : (updateElement s i op hd).on m = (.ok e, m')) :
    hd.ref.cls = .uav ∧ m.world.Keeps (· = hd.ref.slot) m'.world := by
  unfold updateElement at h
  obtain ⟨hcls, h₁⟩ := ok_of_guard h
  refine ⟨of_not_not hcls, ?_⟩
  obtain ⟨⟨id, result⟩, _, hblank, h₂⟩ := ok_of_on_bind h₁
  obtain ⟨rfl, -⟩ := ok_of_lift hblank
  obtain ⟨change, m₁, hchange, h₃⟩ := ok_of_on_bind h₂
  obtain rfl := world_atomicChange hchange
  obtain ⟨snapshot, address, m₂, hfetched, h₄⟩ := fetch_ok h₃
  dsimp only at h₄
  split at h₄
  · obtain ⟨_, _, hset, h₅⟩ := ok_of_on_bind h₄
    cases hset
    cases h₅
    exact hfetched.trans (World.keeps_setUav ..)
  · cases h₄
    exact hfetched

/-- An instruction that makes an access looks up its handle first. -/
theorem on_instruction_of_accesses (hop : i.intrinsic? = some op) (hacc : op.accesses) :
    (instruction s i).on m = ((onHandle s i op).on m).map (Except.map Outcome.effect) id := by
  have hon : (intrinsic s i op).on m = (onHandle s i op).on m := by
    unfold intrinsic
    rw [on_bind]
    cases op <;> first | rfl | cases hacc
  exact on_instruction_of_intrinsic hop hon

theorem instruction_ok_of_accesses (hop : i.intrinsic? = some op) (hacc : op.accesses) :
    (instruction s i).on m = (.ok o, m') ↔ ∃ e, o = .effect e ∧ (onHandle s i op).on m = (.ok e, m') := by
  rw [on_instruction_of_accesses hop hacc]
  cases (onHandle s i op).on m with
  | mk result m₁ => cases result <;> simp [Prod.map, Except.map, eq_comm]

/-- An instruction that writes to a resource writes to the slot of its handle. -/
theorem keeps_of_writesResource (hop : i.intrinsic? = some op) (hwrites : op.writesResource)
    (h : (instruction s i).on m = (.ok o, m')) :
    ∃ id v hd, i.argId 0 = .ok id ∧ m.lane.handle s.program id = .ok (v, hd) ∧ hd.ref.cls = .uav ∧
      m.world.Keeps (· = hd.ref.slot) m'.world := by
  obtain ⟨e, -, hon⟩ := (instruction_ok_of_accesses hop (Intrinsic.accesses_of_writesResource hwrites)).1 h
  unfold onHandle at hon
  obtain ⟨id, _, hid', h₁⟩ := ok_of_on_bind hon
  obtain ⟨rfl, hid⟩ := ok_of_lift hid'
  obtain ⟨hd, m₁, hhandle, h₂⟩ := ok_of_on_bind h₁
  obtain ⟨⟨v, hv⟩, hworld⟩ := handle_ok hhandle
  refine ⟨id, v, hd, hid, hv, ?_⟩
  rw [← hworld]
  rcases Intrinsic.eq_of_writesResource hwrites with (rfl | rfl | rfl) | (rfl | rfl)
  · exact storeElement_ok h₂
  · exact storeElement_ok h₂
  · exact storeElement_ok h₂
  · exact updateElement_ok h₂
  · exact updateElement_ok h₂

/-! ## Other instructions -/

/-- A computation that keeps a property of its machine is like itself. -/
theorem Sim.twice {α : Type} {P : Machine → Prop} {x : Step α}
    (h : ∀ {m a m'}, P m → x.on m = (.ok a, m') → P m') : Sim (Twice P) Eq x x := by
  constructor
  rintro m _ a m' ⟨rfl, hm⟩ hok
  exact ⟨a, m', hok, rfl, rfl, h hm hok⟩

theorem uavs_writeThrough {q : Pointer} {bytes : Bytes} {u : Unit}
    (h : (writeThrough q bytes).on m = (.ok u, m')) : m'.world.uavs = m.world.uavs := by
  unfold writeThrough at h
  obtain ⟨l, _, hlane, h₁⟩ := ok_of_on_bind h
  cases hlane
  split at h₁
  · obtain ⟨l, _, hlane, h₂⟩ := ok_of_on_bind h₁
    cases hlane
    obtain ⟨memory, _, hwrite, h₃⟩ := ok_of_on_bind h₂
    obtain ⟨rfl, -⟩ := ok_of_lift hwrite
    cases h₃
    rfl
  · obtain ⟨shared, _, hshared, h₂⟩ := ok_of_on_bind h₁
    cases hshared
    obtain ⟨memory, _, hwrite, h₃⟩ := ok_of_on_bind h₂
    obtain ⟨rfl, -⟩ := ok_of_lift hwrite
    cases h₃
    rfl

theorem uavs_overwrite {id : Id} {v : Variable} {u : Unit} (h : (overwrite id v).on m = (.ok u, m')) :
    m'.world.uavs = m.world.uavs := by
  unfold overwrite at h
  obtain ⟨l, _, hlane, h₁⟩ := ok_of_on_bind h
  cases hlane
  split at h₁
  · cases h₁
    rfl
  · cases h₁
    rfl

/-- An instruction that does not write to a resource keeps all snapshots. -/
theorem mirror_keeps (hi : ∀ {op}, i.intrinsic? = some op → ¬ op.writesResource) :
    Mirror (Twice fun m => w₀.Keeps written m.world) (fun e e' => e' = e) (fun _ => True) s s i where
  program := rfl
  bindings := rfl
  agrees h := h.1 ▸ .refl ..
  memory h := h.1 ▸ rfl
  group _ _ _ _ h := h.1 ▸ .refl ..
  pointer _ _ _ := trivial
  base h _ := h.1 ▸ rfl
  ask _ := .twice fun hm hok => by
    cases hok
    exact hm.trans (.of_uavs_eq rfl)
  srv _ := .twice fun hm hok => by
    cases hok
    exact hm.trans (World.keeps_srv ..)
  uav _ := .twice fun hm hok => by
    cases hok
    exact hm.trans (World.keeps_uav ..)
  setUav hop hwrites := absurd hwrites (hi hop)
  raise _ := .raise fun h => ⟨h.1 ▸ rfl, h.2⟩
  noteUse _ _ _ _ := .twice fun hm hok => world_noteUse hok ▸ hm
  refer _ _ := .modifyLane fun h => ⟨h.1 ▸ rfl, h.2⟩
  describe _ _ := .modifyLane fun h => ⟨h.1 ▸ rfl, h.2⟩
  allocate _ _ _ := .modifyLane fun h => ⟨h.1 ▸ rfl, h.2⟩
  addPointer _ _ _ _ := .modifyLane fun h => ⟨h.1 ▸ rfl, h.2⟩
  write _ _ _ := .twice fun hm hok => hm.trans (.of_uavs_eq (uavs_writeThrough hok))
  overwrite _ _ _ _ _ _ _ := .twice fun hm hok => hm.trans (.of_uavs_eq (uavs_overwrite hok))
  proceed _ := rfl
  gives _ _ _ := rfl
  loaded _ _ _ _ _ _ _ := rfl
  silent _ _ _ _ _ _ := rfl
  stored _ _ _ _ _ _ _ := rfl
  output _ _ _ h e he := ⟨e, h.1 ▸ he, rfl⟩

theorem world_conclude {a : FunctionAnalysis} {u : Unit} (h : (conclude a i o).on m = (.ok u, m')) :
    m'.world = m.world := by
  have hworld := world_on_conclude a i o m
  rwa [h] at hworld

end Step

namespace Lane

/-- The instruction writes to the resource of a slot: a store to a resource or an atomic update of
    one, whose handle is for the slot. -/
inductive Stores (l : Lane) (p : Program) (i : Instr) : Slot → Prop
  | mk {op : Intrinsic} {id : Id} {v : Variable} {hd : Handle} (hop : i.intrinsic? = some op)
      (hwrites : op.writesResource) (hid : i.argId 0 = .ok id) (hhandle : l.handle p id = .ok (v, hd))
      (hcls : hd.ref.cls = .uav) : Stores l p i hd.ref.slot

/-- A step keeps the snapshots of all slots but one that its instruction writes to. -/
theorem keeps_of_step {l : Lane} {s : Setting} {w : World} {state : StepState}
    (hfin : ¬ l.isFinished) (hok : (l.step s w).result = .ok state) {a : FunctionAnalysis} {i : Instr}
    (hnext : l.nextInstr s.program s.analyses = .ok (a, i)) :
    w.Keeps (l.Stores s.program i) (l.step s w).world := by
  obtain ⟨m, hm, hstep, -⟩ := execute_of_step hfin hok
  obtain ⟨a', i', o, m₁, hnext', ho, hconclude⟩ := Step.execute_iff.1 hm
  cases hnext.symm.trans hnext'
  rw [hstep]
  show w.Keeps _ m.world
  rw [Step.world_conclude hconclude]
  by_cases hi : ∃ op, i.intrinsic? = some op ∧ op.writesResource
  · obtain ⟨op, hop, hwrites⟩ := hi
    obtain ⟨id, v, hd, hid, hv, hcls, hkeeps⟩ := Step.keeps_of_writesResource hop hwrites ho
    refine hkeeps.imp fun {slot} heq => ?_
    subst heq
    exact .mk hop hwrites hid hv hcls
  · have hmirror : Step.Mirror (Step.Twice fun m => w.Keeps (l.Stores s.program i) m.world)
        (fun e e' => e' = e) (fun _ => True) s s i :=
      Step.mirror_keeps fun hop hwrites => hi ⟨_, hop, hwrites⟩
    obtain ⟨_, _, _, -, -, hkeeps⟩ := hmirror.instruction.ok ⟨rfl, .of_uavs_eq rfl⟩ ho
    exact hkeeps

end Lane

end Lockstep
