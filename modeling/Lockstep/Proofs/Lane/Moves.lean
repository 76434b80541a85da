import Lockstep.Proofs.Lane.Fetch
import Lockstep.Proofs.Lane.Performs

set_option autoImplicit false

/-! # Moves of lanes one after another

When lanes move one after another, in whatever order, the snapshot of a read-write resource that an access
sees is its first content with all accesses before performed on it, and its first content is asked for once
(`Move.Chain.tracks`). What accesses do to a snapshot is said apart from the machine (`Move.Replays`). -/

namespace Lockstep

/-- A step of a lane: what it starts from. -/
structure Move where
  lane : Lane
  setting : Setting
  world : World

namespace Move

/-- What the step leaves. -/
def stepped (t : Move) : Stepped := t.lane.step t.setting t.world

/-- The shared state that the step leaves. -/
def left (t : Move) : World := t.stepped.world

/-- Whether the step succeeds. -/
def Succeeds (t : Move) : Prop := ∃ state, t.stepped.result = .ok state

instance (t : Move) : Decidable t.Succeeds :=
  inferInstanceAs (Decidable (∃ state, t.stepped.result = .ok state))

/-- The access that the step makes to an element of a resource. -/
def access? (t : Move) : Option (Instr × Intrinsic × Handle) :=
  t.lane.nextAccess? t.setting.program t.setting.analyses

/-- The outcome of the instruction that the step executes. -/
def outcome (t : Move) (i : Instr) : Except Fault Outcome :=
  ((Step.instruction t.setting i).on { lane := t.lane.advanced, world := t.world }).1

/-- What the step makes of the snapshot of a read-write resource. -/
def change (t : Move) (slot : Slot) (seen : Snapshot) : Snapshot :=
  match t.access? with
  | some (i, op, h) =>
    if h.ref.cls = .uav ∧ h.ref.slot = slot then
      match t.lane.access i op h seen with
      | .ok (_, left) => left
      | .error _ => seen
    else seen
  | none => seen

/-- The step makes no access to a read-write resource. -/
def Spares (t : Move) (slot : Slot) : Prop :=
  ∀ i op h, t.access? = some (i, op, h) → h.ref.cls = .uav → h.ref.slot ≠ slot

/-- What becomes of the snapshot of a read-write resource by moves one after another: a move that makes an access to it
    performs that on the snapshot that the moves before it have left. -/
inductive Replays (slot : Slot) : List Move → Snapshot → Snapshot → Prop
  | nil (s : Snapshot) : Replays slot [] s s
  | spares {t : Move} {rest : List Move} {s s' : Snapshot} (ht : t.Spares slot) (hrest : Replays slot rest s s') :
      Replays slot (t :: rest) s s'
  | performs {t : Move} {rest : List Move} {i : Instr} {op : Intrinsic} {h : Handle} {e : Effect} {s left s' : Snapshot}
      (hnext : t.access? = some (i, op, h)) (hcls : h.ref.cls = .uav) (hslot : h.ref.slot = slot)
      (hperforms : t.lane.Performs i h s op e left) (hrest : Replays slot rest left s') : Replays slot (t :: rest) s s'

theorem Replays.append {slot : Slot} {ts us : List Move} {s s' s'' : Snapshot} (h : Replays slot ts s s')
    (h' : Replays slot us s' s'') : Replays slot (ts ++ us) s s'' := by
  induction h with
  | nil => exact h'
  | spares ht _ ih => exact .spares ht (ih h')
  | performs hnext hcls hslot hperforms _ ih => exact .performs hnext hcls hslot hperforms (ih h')

end Move

namespace World

variable {hosts : List Host} {slot : Slot} {w w' w'' : World} {s : Snapshot} {R R' : Snapshot → Snapshot → Prop}

/-- The first content of a read-write resource between two states: what was there, or else what a host
    answered to the request for it. A resource of which the host has nothing is empty. -/
inductive Origin (hosts : List Host) (slot : Slot) (w w' : World) : Snapshot → Prop
  | there {s : Snapshot} (h : w.uavs.get? slot = some s) : Origin hosts slot w w' s
  | fetched {host : Host} {log : HostLog} (hnone : w.uavs.get? slot = none) (hhost : host ∈ hosts)
      (hlog : w.log.toList <+: log.toList) (hrequest : log.toList ++ [.fetchUav slot] <+: w'.log.toList) :
      Origin hosts slot w w' (Option.getD (α := Snapshot) (host.answer log (.fetchUav slot)) {})

theorem Fetches.log_prefix {asked : List HostRequest} (h : w.Fetches w' asked) :
    w.log.toList <+: w'.log.toList :=
  ⟨asked, h.log.symm⟩

theorem Origin.of_prefix (h : w.Origin hosts slot w' s) (h' : w'.log.toList <+: w''.log.toList) :
    w.Origin hosts slot w'' s := by
  cases h with
  | there h => exact .there h
  | fetched hnone hhost hlog hrequest => exact .fetched hnone hhost hlog (hrequest.trans h')

/-- What is seen of a resource is its first content from there on. -/
theorem origin_uav {host : Host} (hhost : host ∈ hosts) (hlog : (w.uav host slot).2.log.toList <+: w'.log.toList) :
    w.Origin hosts slot w' (w.uav host slot).1 := by
  cases hs : w.uavs.get? slot with
  | some s =>
      rw [uav_of_cached hs]
      exact .there hs
  | none =>
      unfold uav at hlog ⊢
      rw [hs] at hlog ⊢
      exact .fetched hs hhost List.prefix_rfl (Array.toList_push ▸ hlog)

/-- Between two states a read-write resource has not been touched, or its snapshot is what the first content has
    become by a relation. -/
inductive Tracks (hosts : List Host) (slot : Slot) (w w' : World) (R : Snapshot → Snapshot → Prop) : Prop
  | untouched (h : w.uavs.get? slot = none) (h' : w'.uavs.get? slot = none) (hid : ∀ s, R s s)
  | touched {s s' : Snapshot} (horigin : w.Origin hosts slot w' s) (h' : w'.uavs.get? slot = some s') (hR : R s s')

namespace Tracks

theorem of_eq (h : w'.uavs.get? slot = w.uavs.get? slot) (hid : ∀ s, R s s) : w.Tracks hosts slot w' R := by
  cases hs : w.uavs.get? slot with
  | none => exact .untouched hs (h.trans hs) hid
  | some s => exact .touched (.there hs) (h.trans hs) (hid s)

theorem trans (h : w.Tracks hosts slot w' R) (h' : w'.Tracks hosts slot w'' R')
    (hlog : w.log.toList <+: w'.log.toList) (hlog' : w'.log.toList <+: w''.log.toList) :
    w.Tracks hosts slot w'' fun s s'' => ∃ s', R s s' ∧ R' s' s'' := by
  cases h with
  | untouched hnone hnone' hid =>
      cases h' with
      | untouched _ hnone'' hid' => exact .untouched hnone hnone'' fun s => ⟨s, hid s, hid' s⟩
      | touched horigin hs hR =>
          cases horigin with
          | there hs' => cases hnone'.symm.trans hs'
          | fetched _ hhost hlog'' hrequest =>
              exact .touched (.fetched hnone hhost (hlog.trans hlog'') hrequest) hs ⟨_, hid _, hR⟩
  | touched horigin hs hR =>
      cases h' with
      | untouched hnone _ _ => cases hs.symm.trans hnone
      | touched horigin' hs' hR' =>
          cases horigin' with
          | there hs'' =>
              cases hs.symm.trans hs''
              exact .touched (horigin.of_prefix hlog') hs' ⟨_, hR, hR'⟩
          | fetched hnone _ _ _ => cases hs.symm.trans hnone

theorem mono (h : w.Tracks hosts slot w' R) (hmono : ∀ {s s'}, R s s' → R' s s') : w.Tracks hosts slot w' R' := by
  cases h with
  | untouched hnone hnone' hid => exact .untouched hnone hnone' fun s => hmono (hid s)
  | touched horigin hs hR => exact .touched horigin hs (hmono hR)

/-- What is seen of a resource that has been tracked. -/
theorem seen {host : Host} (h : w.Tracks hosts slot w' R) (hhost : host ∈ hosts)
    (hlog : w.log.toList <+: w'.log.toList) :
    ∃ s, w.Origin hosts slot (w'.uav host slot).2 s ∧ R s (w'.uav host slot).1 := by
  cases h with
  | untouched hnone hnone' hid =>
      refine ⟨_, .fetched hnone hhost hlog ?_, ?_⟩
      · unfold uav
        rw [hnone']
        exact (Array.toList_push ▸ List.prefix_rfl)
      · unfold uav
        rw [hnone']
        exact hid _
  | touched horigin hs hR =>
      rw [uav_of_cached hs]
      exact ⟨_, horigin, hR⟩

end Tracks

theorem get?_uavs_uav_of_ne (host : Host) (w : World) {slot slot' : Slot} (h : slot ≠ slot') :
    (w.uav host slot').2.uavs.get? slot = w.uavs.get? slot := by
  unfold uav
  split
  · rfl
  · exact Table.get?_insert_of_ne _ h _

end World

namespace Move

variable {t : Move} {ts past rest : List Move} {slot : Slot} {hosts : List Host} {w : World} {seen : Snapshot}
  {i : Instr} {op : Intrinsic} {h : Handle}

theorem change_of_access {e : Effect} {left : Snapshot} (hnext : t.access? = some (i, op, h))
    (hcls : h.ref.cls = .uav) (haccess : t.lane.access i op h seen = .ok (e, left)) :
    t.change h.ref.slot seen = left := by
  unfold change
  rw [hnext]
  dsimp only
  rw [if_pos ⟨hcls, rfl⟩, haccess]

theorem change_of_spares (h : t.Spares slot) : t.change slot seen = seen := by
  unfold change
  split
  · next i op hd hnext =>
      rw [if_neg]
      rintro ⟨hcls, hslot⟩
      exact h i op hd hnext hcls hslot
  · rfl

/-- A step that succeeds leaves a read-write resource to which it makes no access as it is, and otherwise puts what the
    access leaves of the snapshot that it sees in its place. -/
theorem cases_of_succeeds (h : t.Succeeds) (slot : Slot) :
    (t.Spares slot ∧ t.left.uavs.get? slot = t.world.uavs.get? slot) ∨
      ∃ i op hd e left, t.access? = some (i, op, hd) ∧ hd.ref.cls = .uav ∧ hd.ref.slot = slot ∧
        t.lane.access i op hd (t.world.uav t.setting.host slot).1 = .ok (e, left) ∧
        t.left = (t.world.uav t.setting.host slot).2.setUav slot left := by
  obtain ⟨state, hok⟩ := h
  by_cases hacc : ∃ i op hd, t.access? = some (i, op, hd) ∧ hd.ref.cls = .uav
  · obtain ⟨i, op, hd, hnext, hcls⟩ := hacc
    obtain ⟨hfin, _, _, _, hinstr, -⟩ := Lane.nextAccess?_eq_some_iff.1 hnext
    obtain ⟨o, ho⟩ := Lane.instruction_of_step hfin hinstr hok
    obtain ⟨e, left, -, haccess, hworld⟩ := Lane.access_of_instruction hnext hcls ho
    have hleft : t.left = (t.world.uav t.setting.host hd.ref.slot).2.setUav hd.ref.slot left := hworld
    by_cases hslot : hd.ref.slot = slot
    · subst hslot
      exact .inr ⟨i, op, hd, e, left, hnext, hcls, rfl, haccess, hleft⟩
    · refine .inl ⟨fun i' op' hd' hnext' _ => ?_, ?_⟩
      · cases hnext.symm.trans hnext'
        exact hslot
      · rw [hleft]
        exact (Table.get?_insert_of_ne _ (Ne.symm hslot) _).trans (World.get?_uavs_uav_of_ne _ _ (Ne.symm hslot))
  · have haside : ∀ i op hd, t.access? = some (i, op, hd) → hd.ref.cls ≠ .uav :=
      fun i op hd hnext hcls => hacc ⟨i, op, hd, hnext, hcls⟩
    exact .inl ⟨fun i op hd hnext hcls => absurd hcls (haside i op hd hnext),
      congrArg (·.get? slot) (Lane.uavs_of_step hok haside)⟩

/-- So it leaves a read-write resource as it is, or the host has answered for it. -/
theorem touches (h : t.Succeeds) (hhost : t.setting.host ∈ hosts) (slot : Slot) :
    (t.left.uavs.get? slot = t.world.uavs.get? slot ∧ ∀ seen, t.change slot seen = seen) ∨
      t.world.Origin hosts slot t.left (t.world.uav t.setting.host slot).1 ∧
        t.left.uavs.get? slot = some (t.change slot (t.world.uav t.setting.host slot).1) := by
  rcases cases_of_succeeds h slot with ⟨hspares, hsame⟩ | ⟨i, op, hd, e, left, hnext, hcls, rfl, haccess, hleft⟩
  · exact .inl ⟨hsame, fun _ => change_of_spares hspares⟩
  · refine .inr ⟨World.origin_uav hhost (hleft ▸ List.prefix_rfl), ?_⟩
    rw [change_of_access hnext hcls haccess, hleft]
    exact Table.get?_insert_self ..

/-- So what becomes of every read-write resource is what the step performs on it. -/
theorem tracks (h : t.Succeeds) (hhost : t.setting.host ∈ hosts) (slot : Slot) :
    t.world.Tracks hosts slot t.left (Replays slot [t]) := by
  rcases cases_of_succeeds h slot with ⟨hspares, hsame⟩ | ⟨i, op, hd, e, left, hnext, hcls, rfl, haccess, hleft⟩
  · exact .of_eq hsame fun s => .spares hspares (.nil s)
  · obtain ⟨-, _, _, _, -, -, hacc, -⟩ := Lane.nextAccess?_eq_some_iff.1 hnext
    refine .touched (World.origin_uav hhost (hleft ▸ List.prefix_rfl)) ?_
      (.performs hnext hcls rfl (Lane.performs_of_access hacc haccess) (.nil left))
    rw [hleft]
    exact Table.get?_insert_self ..

/-! ## Chains -/

/-- Moves one after another: each starts from the state that the one before it has left, and only the last
    may fail. -/
def Chain (w : World) : List Move → Prop
  | [] => True
  | t :: rest => t.world = w ∧ (rest ≠ [] → t.Succeeds) ∧ Chain t.left rest

/-- The state that moves leave. -/
def after (w : World) (ts : List Move) : World := ts.foldl (fun _ t => t.left) w

namespace Chain

theorem append {more : List Move} (h : Chain w ts) (hok : more ≠ [] → ∀ t ∈ ts, t.Succeeds)
    (hmore : Chain (after w ts) more) : Chain w (ts ++ more) := by
  induction ts generalizing w with
  | nil => exact hmore
  | cons t rest ih =>
      obtain ⟨hworld, hrest, hchain⟩ := h
      refine ⟨hworld, fun hne => ?_, ih hchain (fun hne t ht => hok hne t (.tail _ ht)) hmore⟩
      by_cases hmore' : more = []
      · subst hmore'
        exact hrest (by simpa using hne)
      · exact hok hmore' t (.head _)

/-- A chain up to a move: those before it have succeeded, and it starts from what they have left. -/
theorem split (h : Chain w (past ++ t :: rest)) :
    Chain w past ∧ (∀ u ∈ past, u.Succeeds) ∧ t.world = after w past := by
  induction past generalizing w with
  | nil => exact ⟨trivial, fun _ hu => absurd hu List.not_mem_nil, h.1⟩
  | cons u past ih =>
      obtain ⟨hworld, hrest, hchain⟩ := h
      obtain ⟨hpast, hok, ht⟩ := ih hchain
      have hu : u.Succeeds := hrest (by simp)
      exact ⟨⟨hworld, fun _ => hu, hpast⟩, List.forall_mem_cons.2 ⟨hu, hok⟩, ht⟩

/-- The content of each resource is asked for at most once in a chain, and not at all if it was there. -/
theorem fetches (h : Chain w ts) : ∃ asked, w.Fetches (after w ts) asked := by
  induction ts generalizing w with
  | nil => exact ⟨[], .refl w⟩
  | cons t rest ih =>
      obtain ⟨rfl, -, hchain⟩ := h
      obtain ⟨asked, hstep⟩ := Lane.fetches_of_step t.lane t.setting t.world
      obtain ⟨asked', hrest⟩ := ih hchain
      exact ⟨_, hstep.trans hrest⟩

/-- Along a chain the snapshot of a read-write resource is what its first content becomes by the moves. -/
theorem tracks (h : Chain w ts) (hok : ∀ t ∈ ts, t.Succeeds) (hhosts : ∀ t ∈ ts, t.setting.host ∈ hosts)
    (slot : Slot) : w.Tracks hosts slot (after w ts) (Replays slot ts) := by
  induction ts generalizing w with
  | nil => exact .of_eq rfl .nil
  | cons t rest ih =>
      obtain ⟨rfl, -, hchain⟩ := h
      obtain ⟨hok, hokRest⟩ := List.forall_mem_cons.1 hok
      obtain ⟨hhost, hhostsRest⟩ := List.forall_mem_cons.1 hhosts
      obtain ⟨_, hstep⟩ := Lane.fetches_of_step t.lane t.setting t.world
      obtain ⟨_, hrest⟩ := fetches hchain
      refine ((Move.tracks hok hhost slot).trans (ih hchain hokRest hhostsRest) hstep.log_prefix
        hrest.log_prefix).mono ?_
      rintro s s'' ⟨s', hfirst, hmore⟩
      exact hfirst.append hmore

/-- An access to a read-write resource sees what its first content has become by the moves before it, and performs what
    it says on that. -/
theorem access (hchain : Chain w (past ++ t :: rest)) (hhosts : ∀ u ∈ past ++ [t], u.setting.host ∈ hosts)
    (hnext : t.access? = some (i, op, h)) (hcls : h.ref.cls = .uav) {o : Outcome} (hok : t.outcome i = .ok o) :
    ∃ origin seen e left, w.Origin hosts h.ref.slot t.left origin ∧ Replays h.ref.slot past origin seen ∧
      (t.world.uav t.setting.host h.ref.slot).1 = seen ∧ t.lane.Performs i h seen op e left ∧ o = .effect e ∧
      t.left.uavs.get? h.ref.slot = some left := by
  obtain ⟨hpast, hokPast, hworld⟩ := hchain.split
  obtain ⟨hhostsPast, hhost⟩ := List.forall_mem_append.1 hhosts
  obtain ⟨_, hfetches⟩ := hpast.fetches
  obtain ⟨origin, horigin, hseen⟩ := (hpast.tracks hokPast hhostsPast h.ref.slot).seen
    (hhost t (List.mem_singleton_self t)) hfetches.log_prefix
  obtain ⟨-, _, _, _, -, -, hacc, -⟩ := Lane.nextAccess?_eq_some_iff.1 hnext
  obtain ⟨e, left, rfl, haccess, hleft⟩ := Lane.access_of_instruction hnext hcls hok
  rw [← hworld] at horigin hseen
  have hleft : t.left = (t.world.uav t.setting.host h.ref.slot).2.setUav h.ref.slot left := hleft
  refine ⟨origin, _, e, left, horigin.of_prefix (hleft ▸ List.prefix_rfl), hseen, rfl,
    Lane.performs_of_access hacc haccess, rfl, ?_⟩
  rw [hleft]
  exact Table.get?_insert_self ..

end Chain

end Move

end Lockstep
