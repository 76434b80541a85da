import Lockstep.Proofs.Except
import Lockstep.Proofs.Exec.Results
import Lockstep.Proofs.Layout
import Lockstep.Proofs.Memory
import Lockstep.Session

set_option autoImplicit false

/-! # Global variables at the start

A session that is set up has one variable for each global declaration, under its name. Its value shows
the allocation, and the shared memory has no other pointers (`Session.allocated_of_allocateGlobals`). -/

namespace Lockstep

namespace World

variable {w w' : World} {g : GlobalDecl} {v : Variable}

/-- A declaration is allocated: its identifier points to an allocation, and a variable of its type shows
    that. -/
structure Declares (g : GlobalDecl) (v : Variable) (m : Memory) : Prop where
  exists_zeroed : ∃ pointee a, g.ty.pointee? = some pointee ∧ m.allocation? g.id = some a ∧
    m.pointer? g.id = some ⟨g.id, 0, pointee.byteSize, pointee⟩ ∧
    v = (Variable.zeroed g.name pointee).ofBytes a.bytes

/-- A declaration is allocated, its initial value is written if it has one, and the variable is what it reads then. -/
theorem allocateGlobal_ok (h : w.allocateGlobal g = .ok (v, w')) :
    ∃ pointee a, g.ty.pointee? = some pointee ∧ w'.memory.allocation? g.id = some a ∧
      v = (Variable.zeroed g.name pointee).ofBytes a.bytes ∧
      (w'.memory = w.memory.allocate g.id pointee true ∨ ∃ bytes,
        (w.memory.allocate g.id pointee true).write ⟨g.id, 0, pointee.byteSize, pointee⟩ bytes = .ok w'.memory) := by
  unfold allocateGlobal at h
  obtain ⟨r, hzero, h⟩ := ok_of_bind h
  obtain ⟨pointee, hpointee, rfl⟩ := Memory.allocateFor_ok hzero
  dsimp only at h
  split at h
  · next init q _ hq =>
      obtain ⟨memory, hwrite, h⟩ := ok_of_bind h
      obtain ⟨v', hreload, h⟩ := ok_of_bind h
      cases h
      obtain ⟨a, ha, rfl⟩ := Memory.reload_ok hreload
      rw [Memory.pointer?_allocate, if_pos rfl] at hq
      cases hq
      exact ⟨pointee, a, hpointee, ha, rfl, .inr ⟨_, hwrite⟩⟩
  · cases h
    refine ⟨pointee, _, hpointee, (Memory.allocation?_allocate ..).trans (if_pos rfl), ?_, .inl rfl⟩
    exact (Variable.shows_zeroed _ _ _ fun b hb => List.eq_of_mem_replicate hb).symm

theorem declares_of_allocateGlobal (h : w.allocateGlobal g = .ok (v, w')) :
    Declares g v w'.memory ∧ ∀ id, id ≠ g.id →
      w'.memory.allocation? id = w.memory.allocation? id ∧
      w'.memory.pointer? id = w.memory.pointer? id := by
  obtain ⟨pointee, a, hpointee, ha, hv, hmemory⟩ := allocateGlobal_ok h
  -- the initial value changes nothing but the content of the new allocation
  obtain ⟨hpointers, hallocations⟩ : (∀ id, w'.memory.pointer? id = (w.memory.allocate g.id pointee true).pointer? id) ∧
      ∀ id, id ≠ g.id → w'.memory.allocation? id = (w.memory.allocate g.id pointee true).allocation? id := by
    rcases hmemory with heq | ⟨bytes, hwrite⟩
    · rw [heq]
      exact ⟨fun _ => rfl, fun _ _ => rfl⟩
    · obtain ⟨hpointers, -, hothers⟩ := Memory.write_ok hwrite
      exact ⟨fun id => congrArg (·.get? id) hpointers, hothers⟩
  refine ⟨⟨pointee, a, hpointee, ha, ?_, hv⟩, fun id hid => ⟨?_, ?_⟩⟩
  · rw [hpointers, Memory.pointer?_allocate, if_pos rfl]
  · rw [hallocations id hid, Memory.allocation?_allocate, if_neg hid]
  · rw [hpointers, Memory.pointer?_allocate, if_neg hid]

/-- One declaration gives one allocation, and its variable shows it. -/
structure Allocates (g : GlobalDecl) (w : World) (v : Variable) (w' : World) : Prop where
  name : v.name = g.name
  shows : ∀ {a}, w'.memory.allocation? g.id = some a → v.Shows a.bytes
  others : ∀ {id}, id ≠ g.id → w'.memory.allocation? id = w.memory.allocation? id
  pointer : ∀ {id q}, w'.memory.pointer? id = some q →
    (id = g.id ∧ q.base = g.id) ∨ w.memory.pointer? id = some q

theorem allocates_of_allocateGlobal (h : w.allocateGlobal g = .ok (v, w')) : Allocates g w v w' := by
  obtain ⟨⟨pointee, a, -, ha, hself, rfl⟩, hothers⟩ := declares_of_allocateGlobal h
  refine ⟨by simp, fun ha' => ?_, fun hid => (hothers _ hid).1, fun {id q} hq => ?_⟩
  · cases ha.symm.trans ha'
    exact Variable.shows_ofBytes ..
  · by_cases hid : id = g.id
    · rw [hid, hself] at hq
      cases hq
      exact .inl ⟨hid, rfl⟩
    · rw [(hothers id hid).2] at hq
      exact .inr hq

end World

namespace Session

/-- What declarations have added to global variables and to the shared memory. -/
structure Declared (ds : List GlobalDecl) (b : Bindings) (w : World) (b' : Bindings) (w' : World) :
    Prop where
  globals : ∃ news, b'.globals = b.globals ++ news ∧ news.map (·.id) = ds.map (·.id) ∧
    ∀ g ∈ news, ∃ d ∈ ds, d.id = g.id ∧ World.Declares d g.value w'.memory
  others : ∀ {id}, id ∉ ds.map (·.id) → w'.memory.allocation? id = w.memory.allocation? id ∧
    w'.memory.pointer? id = w.memory.pointer? id

theorem allocateGlobals_cons {d : GlobalDecl} {ds : List GlobalDecl} {b b' : Bindings} {live live' : Array Bool}
    {w w' : World} (h : allocateGlobals b live w (d :: ds) = .ok (b', live', w')) :
    ∃ v w₁, w.allocateGlobal d = .ok (v, w₁) ∧ d.id.index < live.size ∧
      allocateGlobals (b.addGlobal d.id v) (live.setIfInBounds d.id.index true) w₁ ds = .ok (b', live', w') := by
  rw [allocateGlobals] at h
  obtain ⟨⟨v, w₁⟩, hd, h⟩ := ok_of_bind h
  dsimp only at h
  split at h
  · cases h
  · next hlt => exact ⟨v, w₁, hd, Nat.lt_of_not_le hlt, h⟩

theorem declared_of_allocateGlobals {ds : List GlobalDecl} {b b' : Bindings} {live live' : Array Bool}
    {w w' : World} (hids : (ds.map (·.id)).Nodup)
    (h : allocateGlobals b live w ds = .ok (b', live', w')) : Declared ds b w b' w' := by
  induction ds generalizing b live w with
  | nil =>
      cases h
      exact ⟨⟨[], by simp⟩, fun _ => ⟨rfl, rfl⟩⟩
  | cons d ds ih =>
      obtain ⟨v, w₁, hd, -, h₁⟩ := allocateGlobals_cons h
      rw [List.map_cons, List.nodup_cons] at hids
      obtain ⟨hdeclares, hothers⟩ := World.declares_of_allocateGlobal hd
      obtain ⟨⟨news, hglobals, hnews, hvalues⟩, hrest⟩ := ih hids.2 h₁
      refine ⟨⟨⟨d.id, v⟩ :: news, ?_, ?_, ?_⟩, fun {id} hid => ?_⟩
      · rw [hglobals, Bindings.addGlobal, List.append_assoc, List.singleton_append]
      · rw [List.map_cons, List.map_cons, hnews]
      · intro g hg
        rcases List.mem_cons.1 hg with rfl | hg
        · -- later declarations are of other identifiers, and leave this allocation alone
          obtain ⟨pointee, a, hty, ha, hq, hv⟩ := hdeclares.exists_zeroed
          obtain ⟨ha', hq'⟩ := hrest hids.1
          exact ⟨d, List.mem_cons_self, rfl, pointee, a, hty, ha'.trans ha, hq'.trans hq, hv⟩
        · obtain ⟨d', hd', heq⟩ := hvalues g hg
          exact ⟨d', List.mem_cons_of_mem _ hd', heq⟩
      · rw [List.map_cons, List.mem_cons, not_or] at hid
        obtain ⟨ha, hq⟩ := hothers id hid.1
        exact ⟨(hrest hid.2).1.trans ha, (hrest hid.2).2.trans hq⟩

/-- What declarations have made of global variables. -/
structure Allocated (ds : List GlobalDecl) (b : Bindings) (live : Array Bool) (w : World) : Prop where
  ids : b.globals.map (·.id) = ds.map (·.id)
  name : ∀ g ∈ b.globals, ∃ d ∈ ds, d.id = g.id ∧ g.value.name = d.name
  shows : ∀ g ∈ b.globals, ∀ {a}, w.memory.allocation? g.id = some a → g.value.Shows a.bytes
  pointer : ∀ {id q}, w.memory.pointer? id = some q → (∃ d ∈ ds, d.id = id) ∧ q.base = id
  live : ∀ id : Id, live[id.index]? = some true ↔ ∃ d ∈ ds, d.id = id

variable {ds : List GlobalDecl} {d : GlobalDecl} {b b' : Bindings} {live live' : Array Bool}
  {w w' : World} {v : Variable}

/-- One more declaration. -/
theorem Allocated.add (h : Allocated ds b live w) (hd : World.Allocates d w v w')
    (hnew : ∀ d' ∈ ds, d'.id ≠ d.id) (hlt : d.id.index < live.size) :
    Allocated (ds ++ [d]) (b.addGlobal d.id v) (live.setIfInBounds d.id.index true) w' := by
  refine ⟨?_, ?_, ?_, ?_, ?_⟩
  · simp [Bindings.addGlobal, h.ids]
  · intro g hg
    rcases List.mem_append.1 hg with hg | hg
    · obtain ⟨d', hd', heq⟩ := h.name g hg
      exact ⟨d', List.mem_append_left _ hd', heq⟩
    · obtain rfl := List.mem_singleton.1 hg
      exact ⟨d, by simp, rfl, hd.name⟩
  · intro g hg a ha
    rcases List.mem_append.1 hg with hg | hg
    · obtain ⟨d', hd', heq, -⟩ := h.name g hg
      rw [hd.others (heq ▸ hnew d' hd')] at ha
      exact h.shows g hg ha
    · obtain rfl := List.mem_singleton.1 hg
      exact hd.shows ha
  · intro id q hq
    rcases hd.pointer hq with ⟨rfl, hbase⟩ | hq
    · exact ⟨⟨d, by simp, rfl⟩, hbase⟩
    · obtain ⟨⟨d', hd', heq⟩, hbase⟩ := h.pointer hq
      exact ⟨⟨d', List.mem_append_left _ hd', heq⟩, hbase⟩
  · intro id
    rw [Array.getElem?_setIfInBounds]
    constructor
    · intro hlive
      split at hlive
      · next heq => exact ⟨d, by simp, congrArg Id.mk heq⟩
      · obtain ⟨d', hd', heq⟩ := (h.live id).1 hlive
        exact ⟨d', List.mem_append_left _ hd', heq⟩
    · rintro ⟨d', hd', rfl⟩
      rcases List.mem_append.1 hd' with hd' | hd'
      · rw [if_neg fun heq => hnew d' hd' (congrArg Id.mk heq.symm)]
        exact (h.live _).2 ⟨d', hd', rfl⟩
      · obtain rfl := List.mem_singleton.1 hd'
        rw [if_pos rfl, if_pos hlt]

/-- All declarations, whose identifiers differ. -/
theorem allocated_of_allocateGlobals {rest : List GlobalDecl} (h : Allocated ds b live w)
    (hids : ((ds ++ rest).map (·.id)).Nodup) (hok : allocateGlobals b live w rest = .ok (b', live', w')) :
    Allocated (ds ++ rest) b' live' w' ∧ live'.size = live.size := by
  induction rest generalizing ds b live w with
  | nil =>
      cases hok
      rw [List.append_nil]
      exact ⟨h, rfl⟩
  | cons d rest ih =>
      obtain ⟨v, w₁, hd, hlt, hok⟩ := allocateGlobals_cons hok
      have hnew : ∀ d' ∈ ds, d'.id ≠ d.id := by
        rw [List.map_append, List.nodup_append] at hids
        intro d' hd'
        exact hids.2.2 d'.id (List.mem_map_of_mem hd') d.id (by simp)
      have hadd := h.add (World.allocates_of_allocateGlobal hd) hnew hlt
      obtain ⟨hall, hsize⟩ := ih hadd (by simpa using hids) hok
      rw [List.append_assoc, List.singleton_append] at hall
      exact ⟨hall, hsize.trans Array.size_setIfInBounds⟩

end Session

end Lockstep
