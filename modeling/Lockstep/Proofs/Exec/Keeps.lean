import Lockstep.Proofs.Exec.Inherits
import Lockstep.Proofs.Lane.Frame

set_option autoImplicit false

/-! # Instructions keep the frame

No instruction that stays within its block changes the frame of its lane (`keeps_compute`): it
reaches memory, resources and the host, and leaves it to the outcome to assign the result and to move
the lane. Only a store overwrites identifiers itself, the allocation and the pointer, and these have
values already. -/

namespace Lockstep

namespace Step

variable {s : Setting} {i : Instr} {op : Intrinsic}

/-! ## Resources -/

/-- To report a use changes nothing but what has been reported. -/
theorem exists_on_noteUse (s : Setting) (name : String) (ref : ResourceRef) (m : Machine) :
    ∃ accessed changes, (noteUse s name ref).on m =
      (.ok (), { m with lane := { m.lane with accessed }, changes }) := by
  unfold noteUse
  dsimp only
  split
  · rw [on_bind]
    show ∃ accessed changes,
      Step.on (if m.lane.accessed.contains (ref.cls, ref.slot) then _ else _) m = _
    split <;> exact ⟨_, _, rfl⟩
  · exact ⟨_, _, rfl⟩

theorem keeps_noteUse (name : String) (ref : ResourceRef) : (noteUse s name ref).Keeps := by
  refine ⟨fun m => ?_⟩
  obtain ⟨_, _, h⟩ := exists_on_noteUse s name ref m
  rw [KeepsAt, h]
  rfl

/-- Notes about handles and requests to the host keep the frame. -/
theorem threads_keeps (s : Setting) : Threads Keeps s where
  bind := .bind
  pure := .pure
  throw := .throw
  lift := .lift
  lane := .lane
  raise := .raise
  ask _ := .ask ..
  noteUse := keeps_noteUse
  refer _ _ := .modifyLane fun _ => rfl
  describe _ _ := .modifyLane fun _ => rfl

/-! ## Memory -/

theorem keeps_pointerArg : (pointerArg i).Keeps := by
  unfold pointerArg
  exact .bind (.lift _) fun id => .bind .lane fun l => .bind .shared fun m =>
    .bind (.lift _) fun p => .pure _

theorem keeps_readThrough (p : Pointer) : (readThrough p).Keeps := by
  unfold readThrough
  exact .bind .lane fun l => .bind .shared fun m => .lift _

theorem keeps_assigned (id : Id) : (assigned id).Keeps := by
  unfold assigned
  refine .bind .lane fun l => ?_
  split
  · exact .pure _
  · exact .throw _

theorem keeps_writeThrough (p : Pointer) (bytes : Bytes) : (writeThrough p bytes).Keeps := by
  unfold writeThrough
  refine .bind .lane fun l => .ite (.bind .lane fun l => .bind (.lift _) fun memory => ?_) ?_
  · exact .modifyLane fun _ => rfl
  · exact .bind .shared fun memory => .bind (.lift _) fun memory => .modifyWorld _

/-- An identifier that is read has a value. -/
theorem assigned_ok {id : Id} {m m' : Machine} {v : Variable}
    (h : (assigned id).on m = (.ok v, m')) : m' = m ∧ m.lane.value? id = some v := by
  unfold assigned at h
  obtain ⟨l, _, hlane, h₁⟩ := ok_of_on_bind h
  cases hlane
  split at h₁
  · next w hw =>
      cases h₁
      exact ⟨rfl, hw⟩
  · cases h₁

theorem ok_of_lift {α : Type} {x : Except Fault α} {r : α} {m m' : Machine}
    (h : (liftM x : Step α).on m = (.ok r, m')) : m' = m ∧ x = .ok r := by
  rw [on_lift] at h
  exact ⟨(congrArg Prod.snd h).symm, congrArg Prod.fst h⟩

theorem pointerArg_ok {id : Id} {p : Pointer} {m m' : Machine}
    (h : (pointerArg i).on m = (.ok (id, p), m')) :
    m' = m ∧ i.argId 0 = .ok id ∧ m.lane.resolve m.world.memory id = .ok p := by
  unfold pointerArg at h
  obtain ⟨id', _, hid, h₁⟩ := ok_of_on_bind h
  obtain ⟨rfl, hid'⟩ := ok_of_lift hid
  obtain ⟨l, _, hlane, h₂⟩ := ok_of_on_bind h₁
  cases hlane
  obtain ⟨shared, _, hshared, h₃⟩ := ok_of_on_bind h₂
  cases hshared
  obtain ⟨p', _, hp, h₄⟩ := ok_of_on_bind h₃
  obtain ⟨rfl, hp'⟩ := ok_of_lift hp
  cases h₄
  exact ⟨rfl, hid', hp'⟩

theorem arg_ok {index : Nat} {v : Variable} {m m' : Machine}
    (h : (arg i index).on m = (.ok v, m')) : m' = m ∧ m.lane.arg i index = .ok v := by
  unfold arg at h
  obtain ⟨l, _, hlane, h₁⟩ := ok_of_on_bind h
  cases hlane
  exact ok_of_lift h₁

theorem readThrough_ok {p : Pointer} {bytes : Bytes} {m m' : Machine}
    (h : (readThrough p).on m = (.ok bytes, m')) :
    m' = m ∧ m.lane.readThrough m.world.memory p = .ok bytes := by
  unfold readThrough at h
  obtain ⟨l, _, hlane, h₁⟩ := ok_of_on_bind h
  cases hlane
  obtain ⟨shared, _, hshared, h₂⟩ := ok_of_on_bind h₁
  cases hshared
  exact ok_of_lift h₂

/-- To overwrite an identifier that has a value keeps the frame. -/
theorem keepsAt_overwrite {id : Id} {m : Machine} (after : Variable)
    (h : (m.lane.value? id).isSome) : (overwrite id after).KeepsAt m := by
  unfold overwrite
  refine KeepsAt.bind rfl fun l m₁ hlane => ?_
  obtain ⟨rfl, rfl⟩ : m.lane = l ∧ m = m₁ := by cases hlane; exact ⟨rfl, rfl⟩
  split
  · refine KeepsAt.bind rfl fun _ m₂ hnote => ?_
    have hlane : m₂.lane = m.lane := by cases hnote; rfl
    exact Lane.frame_assign id after (hlane ▸ h)
  · rfl

theorem keeps_store (id : Id) (p : Pointer) (bytes : Bytes) : (store id p bytes).Keeps := by
  unfold store
  refine .bind (keeps_writeThrough ..) fun _ => .bind .lane fun l => .bind .shared fun shared => ?_
  -- that the base has a value is only known of the machine that it was read from
  refine ⟨fun m => ((keeps_assigned p.base).keepsAt m).bind fun v m₁ hv => ?_⟩
  obtain ⟨rfl, hvalue⟩ := assigned_ok hv
  have hsome := Option.isSome_of_eq_some hvalue
  refine KeepsAt.bind rfl fun after m₂ hafter => ?_
  obtain rfl : m₁ = m₂ := congrArg Prod.snd hafter
  split
  · rfl
  · refine (keepsAt_overwrite after hsome).bind fun _ m₃ _ => ?_
    exact ((keeps_assigned id).bind fun v => .bind (keeps_readThrough p) fun _ => .pure _).keepsAt m₃

/-- What a store leaves to be assigned is an identifier with a value. -/
theorem isSome_of_store {id target : Id} {p : Pointer} {bytes : Bytes} {v : Variable}
    {m m' : Machine} (h : (store id p bytes).on m = (.ok (target, v), m')) :
    (m'.lane.value? target).isSome := by
  unfold store at h
  obtain ⟨_, m₁, -, h₁⟩ := ok_of_on_bind h
  obtain ⟨l, m₂, -, h₂⟩ := ok_of_on_bind h₁
  obtain ⟨shared, m₃, -, h₃⟩ := ok_of_on_bind h₂
  obtain ⟨w, m₄, hw, h₄⟩ := ok_of_on_bind h₃
  obtain ⟨hm₄, hbase⟩ := assigned_ok hw
  obtain ⟨after, m₅, hafter, h₅⟩ := ok_of_on_bind h₄
  have hm₅ : m₄ = m₅ := congrArg Prod.snd hafter
  split at h₅
  · cases h₅
    rw [← hm₅, hm₄]
    exact Option.isSome_of_eq_some hbase
  · obtain ⟨_, m₆, -, h₆⟩ := ok_of_on_bind h₅
    obtain ⟨x, m₇, hx, h₇⟩ := ok_of_on_bind h₆
    obtain ⟨hm₇, hid⟩ := assigned_ok hx
    obtain ⟨b, m₈, hb, h₈⟩ := ok_of_on_bind h₇
    have hframe := (keeps_readThrough p).keepsAt m₇
    rw [KeepsAt, hb, hm₇] at hframe
    cases h₈
    rw [Lane.isSome_value_of_frame hframe]
    exact Option.isSome_of_eq_some hid

theorem keeps_alloca : (alloca i).Keeps := by
  unfold alloca
  refine .bind (.lift _) fun id => .bind .lane fun l => .bind (.lift _) fun ⟨v, memory⟩ => ?_
  exact .bind (.modifyLane fun _ => rfl) fun _ => .pure _

theorem keeps_load : (load i).Keeps := by
  unfold load
  refine .bind (.lift _) fun ⟨id, result⟩ => .bind keeps_pointerArg fun ⟨_, p⟩ => ?_
  exact .bind (keeps_readThrough p) fun bytes => .pure _

theorem keeps_storeArg : (storeArg i).Keeps := by
  unfold storeArg
  refine .bind keeps_pointerArg fun ⟨id, p⟩ => .bind (.arg ..) fun v => ?_
  exact .bind (keeps_store ..) fun ⟨_, _⟩ => .pure _

theorem keeps_elementPointer : (elementPointer i).Keeps := by
  unfold elementPointer
  refine .bind (.lift _) fun id => .bind .lane fun l => .bind .shared fun shared => ?_
  refine .bind (.lift _) fun p => .bind (keeps_readThrough p) fun bytes => ?_
  exact .bind (.modifyLane fun _ => rfl) fun _ => .pure _

theorem keeps_atomic : (atomic i).Keeps := by
  unfold atomic
  refine .bind keeps_pointerArg fun ⟨id, p⟩ => .bind (.arg ..) fun operand => ?_
  refine .bind (keeps_readThrough p) fun bytes => ?_
  dsimp only
  split
  · exact .throw _
  -- and so it is with what the store leaves to be assigned
  · refine ⟨fun m => ((keeps_store ..).keepsAt m).bind fun ⟨target, v⟩ m' hstore => ?_⟩
    dsimp only
    split
    · rfl
    · exact (keepsAt_overwrite v (isSome_of_store hstore)).bind fun _ m'' _ => rfl

theorem keeps_memory : (memory i).Keeps := by
  unfold memory
  split
  · exact keeps_alloca
  · exact keeps_load
  · exact keeps_load
  · exact keeps_storeArg
  · exact keeps_storeArg
  · exact keeps_elementPointer
  · exact keeps_atomic

/-! ## All instructions -/

/-- To keep the frame is inherited from the parts of an instruction. -/
theorem inherits_keeps (s : Setting) (i : Instr) : Inherits Keeps s i where
  toThreads := threads_keeps s
  element _ _ := (threads_keeps s).element (.srv s) (.uav s) .setUav
  memory := keeps_memory

/-- The instructions of a block keep the frame. -/
theorem keeps_compute : (compute s i).Keeps := (inherits_keeps s i).compute

end Step

end Lockstep
