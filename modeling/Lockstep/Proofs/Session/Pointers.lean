import Lockstep.Host.Unbound
import Lockstep.Proofs.Lane.Pointers
import Lockstep.Proofs.Session.Globals
import Lockstep.Proofs.Session.Lasting

set_option autoImplicit false

/-! # Registered pointers are valid

At every moment of a session, also within a round and after a fault, each pointer that a lane or the global memory
registers lies inside its allocation. So to read through it succeeds, and to write through it fails only where there
are more bytes than it says, and then changes nothing (`Session.registered_pointers_are_valid`). -/

namespace Lockstep

variable {p : Program} {w w' : World} {g : GlobalDecl} {v : Variable}

/-! ## Global variables -/

/-- A global variable is allocated; its initial value changes nothing but the content. -/
theorem World.alike_of_allocateGlobal (h : w.allocateGlobal g = .ok (v, w')) :
    ∃ pointee, g.ty.pointee? = some pointee ∧ (w.memory.allocate g.id pointee true).Alike w'.memory := by
  obtain ⟨pointee, -, hpointee, -, -, heq | ⟨bytes, hwrite⟩⟩ := allocateGlobal_ok h
  · exact ⟨pointee, hpointee, heq ▸ .refl _⟩
  · exact ⟨pointee, hpointee, Memory.alike_of_write hwrite⟩

/-- The pointers of the global memory lie inside allocations that are none of results, and none of some
    declarations. -/
structure Memory.Grounded (m : Memory) (p : Program) (ds : List GlobalDecl) : Prop where
  pointer : ∀ {x q}, m.pointer? x = some q → q.LiesIn m ∧ ¬ p.IsResult q.base ∧ q.base ∉ ds.map (·.id)

namespace Memory.Grounded

variable {m m' : Memory} {ds : List GlobalDecl} {pointee : Ty}

theorem alike (h : m.Grounded p ds) (hm : m.Alike m') : m'.Grounded p ds := by
  refine ⟨fun {x q} hq => ?_⟩
  rw [hm.pointer] at hq
  obtain ⟨hlies, hbase⟩ := h.pointer hq
  exact ⟨hm.liesIn hlies, hbase⟩

/-- A declaration is allocated that no pointer leads to yet. -/
theorem allocate (h : m.Grounded p (g :: ds)) (hresult : ¬ p.IsResult g.id) (hnew : g.id ∉ ds.map (·.id)) :
    (m.allocate g.id pointee true).Grounded p ds := by
  refine ⟨fun {x q} hq => ?_⟩
  rw [pointer?_allocate] at hq
  split at hq
  · cases hq
    refine ⟨⟨rfl, ⟨List.replicate pointee.byteSize 0, true⟩, (allocation?_allocate ..).trans (if_pos rfl), ?_, ?_⟩,
      hresult, hnew⟩
    · rw [List.length_replicate]
      exact Nat.le_of_eq (Nat.zero_add _)
    · rw [List.length_replicate]
      exact pointee.byteSize_lt
  · obtain ⟨hlies, hbase, hds⟩ := h.pointer hq
    rw [List.map_cons, List.mem_cons, not_or] at hds
    exact ⟨hlies.of_allocation ((allocation?_allocate ..).trans (if_neg hds.1)), hbase, hds.2⟩

/-- A grounded memory supports a lane that has allocated nothing. -/
theorem supports (h : m.Grounded p ds) : ({} : Memory).Supports p m := by
  have hnone : ∀ x : Id, ({} : Memory).allocation? x = none := fun x => Table.get?_empty x
  refine ⟨fun {x q} hq => ?_, fun {base a} ha => ?_⟩
  · rcases hq with hq | hq
    · cases (Table.get?_empty x).symm.trans hq
    · obtain ⟨hlies, hbase, -⟩ := h.pointer hq
      exact ⟨hlies.of_allocation (by rw [allocation?_holding, hnone, Option.none_or]), fun hx => absurd hx hbase⟩
  · cases (hnone base).symm.trans ha

end Memory.Grounded

namespace Session

variable {b : Bindings} {inits : List LaneInit} {active : Nat} {config : Config} {s₀ s t : Session}

theorem grounded_of_allocateGlobals {ds : List GlobalDecl} {b b' : Bindings} {live live' : Array Bool}
    (hresults : ∀ g ∈ ds, ¬ p.IsResult g.id) (hids : (ds.map (·.id)).Nodup) (hw : w.memory.Grounded p ds)
    (h : allocateGlobals b live w ds = .ok (b', live', w')) : w'.memory.Grounded p [] := by
  induction ds generalizing b live w with
  | nil =>
      cases h
      exact hw
  | cons d ds ih =>
      obtain ⟨v, w₁, hd, -, h⟩ := allocateGlobals_cons h
      rw [List.map_cons, List.nodup_cons] at hids
      obtain ⟨pointee, -, halike⟩ := World.alike_of_allocateGlobal hd
      refine ih (fun g hg => hresults g (List.mem_cons_of_mem _ hg)) hids.2 (.alike ?_ halike) h
      exact hw.allocate (hresults d List.mem_cons_self) hids.1

theorem grounded_of_new (hp : p.UniqueIds) (hw : w.memory.Grounded p p.globals)
    (hnew : Session.new p b w inits active config = .ok s₀) : s₀.world.memory.Grounded p [] := by
  obtain ⟨-, analyses, bindings, live, world, -, hglobals, rfl⟩ := new_ok hnew
  exact grounded_of_allocateGlobals (fun g hg hx => hp.apart hx ⟨g, hg, rfl⟩) hp.nodup_globals hw hglobals

/-! ## Every moment -/

theorem lasting_supported {shared₀ : Memory} (hp : p.UniqueIds) (gs : List GlobalVar) :
    Lasting p gs fun l w => Step.Supported p shared₀ l.memory w.memory where
  step hs h := Lane.supported_step hp hs h
  others hs h h' := ⟨h'.1, (Lane.supported_step hp hs h).2⟩
  refresh h := by rwa [Lane.memory_refreshGlobals]
  skipNops h := by rwa [Lane.memory_skipNops]

/-- At every moment, the memory of a lane and the global one register pointers that lie inside. -/
theorem supported_of_visited (hp : p.UniqueIds) (hw : w.memory.Grounded p p.globals)
    (hnew : Session.new p b w inits active config = .ok s₀) (ht : s₀.Visited t) :
    t.All p s₀.bindings.globals fun l w' => Step.Supported p s₀.world.memory l.memory w'.memory := by
  have hfresh := fresh_of_new hnew
  refine Visited.all (lasting_supported hp _) (fun h => ?_) ⟨hfresh.program, rfl, fun {l} hl => ?_⟩ ht
  · rwa [(Lane.memory_enter ..).2]
  · obtain ⟨j, hj⟩ := List.getElem?_of_mem hl
    obtain ⟨init, rfl⟩ := hfresh.lane j l hj
    exact ⟨(grounded_of_new hp hw hnew).supports, .refl _⟩

/-- Where the identifiers of a program are unique, and the memory that a session is set up with is grounded, each
    pointer that a lane or the global memory registers at any moment addresses as many bytes of its allocation as its
    type has. Reading through it gives these bytes. Writing through it succeeds for as many bytes or fewer; for more it
    fails, and leaves the lane and all that lanes share as they were. -/
theorem registered_pointers_are_valid (hp : p.UniqueIds) (hw : w.memory.Grounded p p.globals)
    (hnew : Session.new p b w inits active config = .ok s₀) (ht : s₀.Visited t) :
    ∀ l ∈ t.lanes, ∀ x q, l.memory.pointer? x = some q ∨ t.world.memory.pointer? x = some q →
      q.LiesIn (l.memoryOf t.world.memory q.base) ∧
      (∃ bytes, l.readThrough t.world.memory q = .ok bytes ∧ bytes.length = q.size) ∧
      ∀ (m : Machine) (bytes : Bytes), m.lane = l → m.world = t.world →
        (bytes.length ≤ q.size → ((Step.writeThrough q bytes).on m).1 = .ok ()) ∧
        (q.size < bytes.length → (Step.writeThrough q bytes).on m =
          (.error (.memory (.writeTooLong bytes.length q.size)), m)) := by
  intro l hl x q hq
  have hold := ((supported_of_visited hp hw hnew ht).lane hl).supports.pointer hq
  refine ⟨hold.liesIn, hold.liesIn.read, ?_⟩
  rintro m bytes rfl hworld
  exact ⟨fun hfits => Step.writeThrough_of_liesIn (hworld ▸ hold.liesIn) hfits, Step.writeThrough_of_lt⟩

/-- Derives a pointer to the second element of an array, and then one far behind the array. -/
def derivePastEnd : Program :=
  { stage := .compute
    globals := [{ id := ⟨3⟩, name := "total", ty := .pointer (.int 32) .groupShared, init := some (.int 32 7) }]
    functions := #[{
      name := "derivePastEnd"
      blocks := #[{}]
      instrs := #[
        { op := .alloca, ty := .pointer (.array (.int 32) 2) .stack, result := some ⟨0⟩ },
        { op := .getElementPtr, ty := .pointer (.int 32) .stack, result := some ⟨1⟩,
          args := [.ref ⟨0⟩, .const (.int 32 0), .const (.int 32 1)] },
        { op := .getElementPtr, ty := .pointer (.int 32) .stack, result := some ⟨2⟩,
          args := [.ref ⟨1⟩, .const (.int 32 0x7fffffff)] },
        { op := .ret }] }]
    idCount := 4 }

set_option synthInstance.maxSize 512 in
/-- When the second derivation has failed, the pointer to the element can be read, and not be written by more than it
    holds; the same is true of the global variable. -/
theorem derivePastEnd_stays_inside :
    ∃ s₀ s t l q g bytes, Session.new derivePastEnd {} {} [{}] 0 {} = .ok s₀ ∧ Reached s₀ s ∧
      t = (s.stepLanes .unbound 0 [true]).session ∧ (s.stepLanes .unbound 0 [true]).result.toOption.isNone ∧
      l ∈ t.lanes ∧ l.memory.pointer? ⟨1⟩ = some q ∧ q.offset = 4 ∧ q.base = ⟨0⟩ ∧
      q.LiesIn (l.memoryOf t.world.memory q.base) ∧ l.readThrough t.world.memory q = .ok bytes ∧
      bytes.length = q.size ∧
      (∀ m : Machine, m.lane = l → m.world = t.world → ∀ bytes : Bytes, q.size < bytes.length →
        (Step.writeThrough q bytes).on m = (.error (.memory (.writeTooLong bytes.length q.size)), m)) ∧
      t.world.memory.pointer? ⟨3⟩ = some g ∧ g.LiesIn (l.memoryOf t.world.memory g.base) := by
  have h : ∃ s₀, Session.new derivePastEnd {} {} [{}] 0 {} = .ok s₀ ∧ ∃ states, s₀.start.result = .ok states ∧
      ∃ s, s₀.start.session.advance .unbound 2 = .ok s ∧ (s.stepLanes .unbound 0 [true]).result.toOption.isNone ∧
      ∃ l, (s.stepLanes .unbound 0 [true]).session.lanes[0]? = some l ∧
        (∃ q, l.memory.pointer? ⟨1⟩ = some q ∧ q.offset = 4 ∧ q.base = ⟨0⟩) ∧
        ((s.stepLanes .unbound 0 [true]).session.world.memory.pointer? ⟨3⟩).isSome := by
    decide +kernel
  obtain ⟨s₀, hnew, states, hstart, s, hs, hfails, l, hl, ⟨q, hq, hoffset, hbase⟩, hglobal⟩ := h
  obtain ⟨g, hg⟩ := Option.isSome_iff_exists.1 hglobal
  have hreached := (Reached.started hstart).advance hs
  have hmemory : (World.memory {}).Grounded derivePastEnd derivePastEnd.globals := by
    refine ⟨fun {x q} hq => ?_⟩
    cases (Table.get?_empty x).symm.trans hq
  have hvalid := registered_pointers_are_valid (by decide) hmemory hnew
    (.moment hreached (.turns .unbound [true])) l (List.mem_of_getElem? hl)
  obtain ⟨hlies, ⟨bytes, hread, hlength⟩, hwrite⟩ := hvalid ⟨1⟩ q (.inl hq)
  exact ⟨s₀, s, _, l, q, g, bytes, hnew, hreached, rfl, hfails, List.mem_of_getElem? hl, hq, hoffset, hbase, hlies,
    hread, hlength, fun m hm hworld bytes hlt => (hwrite m bytes hm hworld).2 hlt, hg, (hvalid ⟨3⟩ g (.inr hg)).1⟩

end Session

end Lockstep
