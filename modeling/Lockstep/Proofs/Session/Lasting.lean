import Lockstep.Proofs.Session.Rounds

set_option autoImplicit false

/-! # What lanes keep at every moment

A property of lanes that their steps keep, whether they succeed or not, and that global variables can be read again
without losing, is one of all lanes at every moment of a round: after any turn, also after one that failed, and when
the round has ended or failed (`Session.All.stepLanes`, `Session.All.round`). One that also entering the program
keeps is a property of the lanes at every moment of a session (`Session.Visited.all`). -/

namespace Lockstep

namespace Session

/-- A property of a lane and of what the lanes share that lasts: a step keeps it for its lane and for the other lanes,
    and so do reading the global variables again and passing markers. -/
structure Lasting (p : Program) (gs : List GlobalVar) (J : Lane → World → Prop) : Prop where
  step : ∀ {l : Lane} {s : Setting} {w : World}, s.program = p → J l w → J (l.step s w).lane (l.step s w).world
  others : ∀ {l l' : Lane} {s : Setting} {w : World}, s.program = p → J l w → J l' w → J l' (l.step s w).world
  refresh : ∀ {l : Lane} {w : World}, J l w → J (l.refreshGlobals w.memory gs).2 w
  skipNops : ∀ {l : Lane} {w : World}, J l w → J (l.skipNops p) w

/-- All lanes of a session have a property. -/
structure All (p : Program) (gs : List GlobalVar) (J : Lane → World → Prop) (s : Session) : Prop where
  program : s.program = p
  globals : s.bindings.globals = gs
  lane : ∀ {l}, l ∈ s.lanes → J l s.world

variable {p : Program} {gs : List GlobalVar} {J : Lane → World → Prop} {s : Session}

namespace All

theorem stepLane (hJ : Lasting p gs J) (h : s.All p gs J) (host : Host) (index : Nat) :
    (s.stepLane host index).session.All p gs J := by
  unfold Session.stepLane
  split
  · exact h
  · next l hl =>
      have hlane := h.lane (List.mem_of_getElem? hl)
      have hupdate : (s.update index (l.step (s.setting host index) s.world)).All p gs J := by
        refine ⟨h.program, h.globals, fun {l'} hl' => ?_⟩
        rcases List.mem_or_eq_of_mem_set hl' with hl' | rfl
        · exact hJ.others (s := s.setting host index) h.program hlane (h.lane hl')
        · exact hJ.step h.program hlane
      dsimp only
      split
      · exact hupdate
      · split
        · exact ⟨hupdate.program, hupdate.globals, hupdate.lane⟩
        · exact hupdate

/-- The turns of lanes, up to one that fails. -/
theorem stepLanes (hJ : Lasting p gs J) (h : s.All p gs J) (host : Host) (index : Nat) (mask : List Bool) :
    (s.stepLanes host index mask).session.All p gs J := by
  induction mask generalizing s index with
  | nil => exact h
  | cons runs rest ih =>
      cases runs with
      | false => exact ih h (index + 1)
      | true =>
          have hlane := h.stepLane hJ host index
          rw [Session.stepLanes]
          dsimp only
          split
          · exact hlane
          · exact ih hlane (index + 1)

theorem refreshLanes (hJ : Lasting p gs J) (h : s.All p gs J) (index count : Nat) :
    (s.refreshLanes index count).session.All p gs J := by
  induction count generalizing s index with
  | zero => exact h
  | succ count ih =>
      rw [Session.refreshLanes]
      split
      · exact h
      · next l hl =>
          have hrefresh := hJ.refresh (h.lane (List.mem_of_getElem? hl))
          rw [← h.globals] at hrefresh
          generalize l.refreshGlobals s.world.memory s.bindings.globals = refreshed at hrefresh ⊢
          have hset : ({ s with lanes := s.lanes.set index refreshed.2 } : Session).All p gs J := by
            refine ⟨h.program, h.globals, fun {l'} hl' => ?_⟩
            rcases List.mem_or_eq_of_mem_set hl' with hl' | rfl
            · exact h.lane hl'
            · exact hrefresh
          dsimp only
          split
          · exact hset
          · exact ih hset (index + 1)

/-- A round, up to where it fails. -/
theorem round (hJ : Lasting p gs J) (h : s.All p gs J) (host : Host) : (s.round host).session.All p gs J := by
  have hturns := h.stepLanes hJ host 0 s.mask
  have hrefresh : ((s.stepLanes host 0 s.mask).session.refresh s.world.memory.writes).session.All p gs J := by
    unfold Session.refresh
    split
    · exact hturns
    · exact hturns.refreshLanes hJ ..
  unfold Session.round
  dsimp only
  split
  · exact hturns
  · split
    · exact hrefresh
    · refine ⟨hrefresh.program, hrefresh.globals, fun {l'} hl' => ?_⟩
      obtain ⟨j, hj⟩ := List.getElem?_of_mem hl'
      obtain ⟨l, hl, hskip⟩ := (lanesBy_skipNops s.mask).lane j l' hj
      have hlane := hrefresh.lane (List.mem_of_getElem? hl)
      rw [hskip]
      split
      · rw [hrefresh.program]
        exact hJ.skipNops hlane
      · exact hlane

/-- Entering the program, up to a lane that cannot. -/
theorem enterLanes (henter : ∀ {l : Lane} {w : World} {b : Bindings} {as : Analyses} {live : Array Bool}, J l w →
    J (l.enter p b as live).2 w) (h : s.All p gs J) (index count : Nat) :
    (s.enterLanes index count).session.All p gs J := by
  induction count generalizing s index with
  | zero => exact h
  | succ count ih =>
      rw [Session.enterLanes]
      split
      · exact h
      · next l hl =>
          have hentered : J (l.enter s.program s.bindings s.analyses s.liveGlobals).2 s.world := by
            rw [h.program]
            exact henter (h.lane (List.mem_of_getElem? hl))
          generalize l.enter s.program s.bindings s.analyses s.liveGlobals = entered at hentered ⊢
          have hset : ({ s with lanes := s.lanes.set index entered.2 } : Session).All p gs J := by
            refine ⟨h.program, h.globals, fun {l'} hl' => ?_⟩
            rcases List.mem_or_eq_of_mem_set hl' with hl' | rfl
            · exact h.lane hl'
            · exact hentered
          dsimp only
          split
          · exact hset
          · exact ih hset (index + 1)

end All

/-! ## Moments -/

/-- A session at some moment of a round, after the turns of some lanes or at the end. The last turn may
    have failed, or the round. -/
inductive Moment (s : Session) : Session → Prop
  | turns (host : Host) (mask : List Bool) : Moment s (s.stepLanes host 0 mask).session
  | round (host : Host) : Moment s (s.round host).session

/-- A session at some moment: as it was set up, when it has been started or that has failed, or within a round. -/
inductive Visited (s₀ : Session) : Session → Prop
  | fresh : Visited s₀ s₀
  | start : Visited s₀ s₀.start.session
  | moment {s t : Session} (hs : Reached s₀ s) (ht : s.Moment t) : Visited s₀ t

/-- What lasts, holds of new lanes and is kept by entering holds at every moment. -/
theorem Visited.all {s₀ t : Session} (hJ : Lasting p gs J) (henter : ∀ {l : Lane} {w : World} {b : Bindings}
    {as : Analyses} {live : Array Bool}, J l w → J (l.enter p b as live).2 w) (hs : s₀.All p gs J)
    (ht : s₀.Visited t) : t.All p gs J := by
  have hstart : s₀.start.session.All p gs J := by
    have hentered := All.enterLanes henter (s := { s₀ with isStarted := true }) ⟨hs.program, hs.globals, hs.lane⟩ 0
      s₀.lanes.length
    unfold Session.start
    dsimp only
    split
    · exact hentered
    · exact ⟨hentered.program, hentered.globals, hentered.lane⟩
  cases ht with
  | fresh => exact hs
  | start => exact hstart
  | @moment s _ hreached hmoment =>
      have hs' : s.All p gs J := by
        clear hmoment
        induction hreached with
        | started _ => exact hstart
        | round _ _ ih => exact ih.round hJ _
      cases hmoment with
      | turns host mask => exact hs'.stepLanes hJ host 0 mask
      | round host => exact hs'.round hJ host

end Session

end Lockstep
