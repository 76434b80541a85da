import Lockstep.Proofs.Lane.Reload
import Lockstep.Proofs.View.Update

set_option autoImplicit false

/-! # Atomic updates of buffers

An atomic update of an integer in a read-write buffer gives the word that is there and changes no other byte, if
the component lies inside the view and the data; otherwise it gives zero (`Lane.updates_component`). It should
then leave the buffer alone, and does so unless the component lies inside the data but not inside the view. -/

namespace Lockstep

namespace Lane

/-- The lane is about to update a component of a buffer element, by a function, and to assign what it was to an
    identifier. -/
inductive Updates (l : Lane) (p : Program) (as : Analyses) (h : Handle) (index : UInt32) (offset : UInt64)
    (change : UInt64 → UInt64) (id : Id) (a : ViewAccess) : Prop
  | mk {i : Instr} {op : Intrinsic} {result : Variable} (hop : op = .atomicBinOp ∨ op = .atomicCompareExchange)
      (hnext : l.nextAccess? p as = some (i, op, h)) (hcls : h.ref.cls = .uav)
      (haddress : l.address i op.addressArg false = .ok (.buffer index offset))
      (hblank : i.blank = .ok (id, result)) (hchange : l.atomicChange i op result.elem.bits = .ok change)
      (hplace : l.hasPlace id)
      (ha : a = { structStride := h.structStride?, elem := result.elem, columns := 1
                  address := .buffer index offset })

variable {l : Lane} {s : Setting} {w : World} {h : Handle} {index : UInt32} {offset : UInt64} {a : ViewAccess}
  {f : ViewFormat} {seen : Snapshot} {change : UInt64 → UInt64} {id : Id} {start : Nat}

theorem Updates.address (hupdates : l.Updates s.program s.analyses h index offset change id a) :
    a.address = .buffer index offset := by
  obtain ⟨-, -, -, -, -, -, -, rfl⟩ := hupdates
  rfl

/-- What an update gives is what it makes of the snapshot, or zero if it finds no element. -/
theorem access_of_update {i : Instr} {op : Intrinsic} {result : Variable}
    (hop : op = .atomicBinOp ∨ op = .atomicCompareExchange)
    (haddress : l.address i op.addressArg false = .ok (.buffer index offset)) (hblank : i.blank = .ok (id, result))
    (hchange : l.atomicChange i op result.elem.bits = .ok change)
    (ha : a = { structStride := h.structStride?, elem := result.elem, columns := 1
                address := .buffer index offset }) (htexture : seen.isTexture = false) :
    ∃ v : Variable, v.get 0 = ((seen.update? a change).getD (0, seen)).1 ∧
      l.access i op h seen = .ok (.value id v, ((seen.update? a change).getD (0, seen)).2) := by
  subst ha
  obtain ⟨_, -, hzero⟩ := ok_of_map hblank
  have hupdate : l.access i op h seen = l.updateIn i op h seen := by rcases hop with rfl | rfl <;> rfl
  rw [hupdate, updateIn, hblank]
  dsimp only [bind, Except.bind]
  rw [hchange]
  dsimp only
  rw [htexture, haddress]
  dsimp only
  cases seen.update? _ change with
  | none =>
      refine ⟨result, ?_, rfl⟩
      cases hzero
      exact Variable.get_zeroed ..
  | some x => exact ⟨result.set 0 x.1, Value.get_set_self _ (by decide) _, rfl⟩

/-- An update succeeds; where it finds no element it gives zero and leaves the snapshot. -/
theorem Updates.step (hupdates : l.Updates s.program s.analyses h index offset change id a)
    (hseen : (w.uav s.host h.ref.slot).1 = seen) (htexture : seen.isTexture = false) :
    (∃ state, (l.step s w).result = .ok state) ∧
      ∃ r, (l.step s w).lane.value? id = some r ∧ r.get 0 = ((seen.update? a change).getD (0, seen)).1 ∧
        (l.step s w).world = (w.uav s.host h.ref.slot).2.setUav h.ref.slot
          ((seen.update? a change).getD (0, seen)).2 := by
  obtain ⟨hop, hnext, hcls, haddress, hblank, hchange, hplace, ha⟩ := hupdates
  obtain ⟨v, hv, haccess⟩ := access_of_update hop haddress hblank hchange ha htexture
  rw [← hseen] at haccess
  obtain ⟨hok, hworld, hvalue⟩ := step_of_access hnext hcls haccess (by
    rintro _ _ _ ⟨⟩
    exact hplace)
  obtain ⟨-, _, _, _, -, hcall, hacc, -⟩ := nextAccess?_eq_some_iff.1 hnext
  refine ⟨hok, v, ?_, hv, hseen ▸ hworld⟩
  rw [hvalue _ _ _ rfl, Instr.assigned, if_neg (Instr.not_isFlushing_of_accesses hcall hacc)]

/-- An update of an integer component of four or eight bytes succeeds. Inside the view and the data it gives the
    word that is there and replaces nothing else; anywhere else it gives zero, and leaves the buffer alone unless
    the component of an element of the view lies inside the data all the same. -/
theorem updates_component (hupdates : l.Updates s.program s.analyses h index offset change id a)
    (hseen : (w.uav s.host h.ref.slot).1 = seen) (htexture : seen.isTexture = false)
    (hwords : seen.HoldsWords a.elem) (hformat : seen.formatAt? a = some f)
    (hstart : seen.startOf a f index offset = start) (hlt : start < 2 ^ 64) :
    (∃ state, (l.step s w).result = .ok state) ∧
      ∃ r left, (l.step s w).lane.value? id = some r ∧
        (l.step s w).world = (w.uav s.host h.ref.slot).2.setUav h.ref.slot left ∧
        (seen.ComponentInside a f start → seen.data.length < 2 ^ 32 →
          r.get 0 = seen.data.wordAt start a.elem.byteSize ∧
            left = seen.setWord start a.elem.byteSize (change (seen.data.wordAt start a.elem.byteSize))) ∧
        (¬ seen.ComponentInside a f start →
          r.get 0 = 0 ∧ (¬ seen.Reaches a f index start → left = seen)) := by
  obtain ⟨hok, r, hr, hget, hworld⟩ := hupdates.step hseen htexture
  refine ⟨hok, r, _, hr, hworld, fun hinside hlength => ?_, fun houtside => ?_⟩
  · rw [hget, Snapshot.update?_of_inside hupdates.address hformat hwords hstart hinside hlength]
    exact ⟨rfl, rfl⟩
  · rcases Snapshot.update?_of_outside hupdates.address hformat hwords hstart hlt houtside change
      with hnone | ⟨hhas, hsome⟩
    · rw [hget, hnone]
      exact ⟨rfl, fun _ => rfl⟩
    · rw [hget, hsome]
      refine ⟨rfl, fun hno => Snapshot.setWord_of_lt (Nat.lt_of_not_le fun hle => hno ⟨hhas, ?_⟩)⟩
      rwa [hwords.width hformat]

/-- Adds to the first number of a buffer, and then to the next, which the view does not have. -/
def twoAtomicAdds : Program :=
  { stage := .compute
    resources := [{ name := "numbers", cls := .uav, kind := .structuredBuffer }]
    functions := #[{
      name := "twoAtomicAdds"
      blocks := #[{}]
      instrs := #[
        { op := .call, ty := .handle, result := some ⟨0⟩, callee := some (.intrinsic .createHandle),
          args := [.const (.int 32 1), .const (.int 32 0), .const (.int 32 0)] },
        { op := .call, ty := .int 32, result := some ⟨1⟩, callee := some (.intrinsic .atomicBinOp),
          args := [.ref ⟨0⟩, .const (.int 32 0), .const (.int 32 0), .const (.int 32 0), .const (.int 32 0),
            .const (.int 32 5)] },
        { op := .call, ty := .int 32, result := some ⟨2⟩, callee := some (.intrinsic .atomicBinOp),
          args := [.ref ⟨0⟩, .const (.int 32 0), .const (.int 32 0), .const (.int 32 4), .const (.int 32 0),
            .const (.int 32 5)] },
        { op := .ret }] }]
    idCount := 3 }

/-- A view of the first of two numbers. -/
def firstOfTwoNumbers : Snapshot :=
  { info := { numElements := 1, format := { stride := 4 } }, data := [3, 0, 0, 0, 7, 0, 0, 0] }

/-- How the instructions of this program see a number. -/
def numberAtOffset (offset : UInt64) : ViewAccess :=
  { structStride := none, elem := .sInt, columns := 1, address := .buffer 0 offset }

/-- The format in which they see it. -/
def numberFormat : ViewFormat := { byteWidth := 4, numComps := 1, kind := .sInt, stride := 4 }

set_option synthInstance.maxSize 512 in
/-- The first addition of this program gives what was there, and changes the first number only. -/
theorem twoAtomicAdds_updates_first :
    ∃ (s₀ s : Session) (l : Lane) (r : Variable),
      Session.new twoAtomicAdds {} (({} : World).setUav (.ofRegister 0 0) firstOfTwoNumbers) [{}] 0 {} = .ok s₀ ∧
      s₀.start.session.advance .unbound 1 = .ok s ∧ s.lanes[0]? = some l ∧
      (l.step (s.setting .unbound 0) s.world).lane.value? ⟨1⟩ = some r ∧ r.get 0 = 3 ∧
      ∃ left, (l.step (s.setting .unbound 0) s.world).world.uavs.get? (.ofRegister 0 0) = some left ∧
        left.data = [8, 0, 0, 0, 7, 0, 0, 0] := by
  have h : ∃ s₀, Session.new twoAtomicAdds {} (({} : World).setUav (.ofRegister 0 0) firstOfTwoNumbers) [{}] 0 {} =
        .ok s₀ ∧
      ∃ states, s₀.start.result = .ok states ∧ ∃ s, s₀.start.session.advance .unbound 1 = .ok s ∧
      (s.world.uav .unbound (.ofRegister 0 0)).1 = firstOfTwoNumbers ∧ ∃ l, s.lanes[0]? = some l ∧
      ∃ x, l.nextAccess? s.program s.analyses = some x ∧ (x.2.1 = .atomicBinOp ∧ x.2.2.ref.cls = .uav ∧
        x.2.2.ref.slot = .ofRegister 0 0 ∧ x.2.2.structStride? = none ∧ l.hasPlace ⟨1⟩ ∧
        ∃ address, l.address x.1 2 false = .ok address ∧ (address = .buffer 0 0 ∧
        ∃ blank, x.1.blank = .ok blank ∧ (blank.1 = ⟨1⟩ ∧ blank.2.elem = .sInt ∧
        ∃ change, l.atomicChange x.1 x.2.1 32 = .ok change ∧ change 3 = 8))) := by
    decide +kernel
  obtain ⟨s₀, hnew, _, -, s, hs, hseen, l, hl, ⟨i, op, hd⟩, hnext, hop, hcls, hslot, hstride, hplace, _, haddress,
    rfl, ⟨id, result⟩, hblank, rfl, helem, change, hchange, hsum⟩ := h
  have hupdates : l.Updates s.program s.analyses hd 0 0 change ⟨1⟩ (numberAtOffset 0) := by
    dsimp only at hop helem hchange
    refine .mk (.inl hop) hnext hcls ?_ hblank ?_ hplace ?_
    · rw [hop]
      exact haddress
    · rw [helem]
      exact hchange
    · rw [hstride, helem]
      rfl
  have hinside : firstOfTwoNumbers.ComponentInside (numberAtOffset 0) numberFormat 0 :=
    ⟨by decide, by decide, by decide⟩
  have hfound : (s.world.uav .unbound hd.ref.slot).1 = firstOfTwoNumbers := by
    rw [hslot]
    exact hseen
  have hstart : firstOfTwoNumbers.startOf (numberAtOffset 0) numberFormat 0 0 = 0 := by decide
  obtain ⟨-, r, left, hr, hworld, hin, -⟩ := updates_component (s := s.setting .unbound 0) hupdates hfound
    rfl (by decide) rfl hstart (by decide)
  obtain ⟨hold, hleft⟩ := hin hinside (by decide)
  have hword : firstOfTwoNumbers.data.wordAt 0 4 = 3 := by decide
  refine ⟨s₀, s, l, r, hnew, hs, hl, hr, hold.trans hword, left, ?_, ?_⟩
  · rw [hworld, hslot]
    exact Table.get?_insert_self ..
  · rw [hleft, show firstOfTwoNumbers.data.wordAt 0 (numberAtOffset 0).elem.byteSize = 3 from hword, hsum]
    decide

set_option synthInstance.maxSize 512 in
/-- The second addition gives zero, as the view ends where the second number starts, but it overwrites the number
    by the five that it adds. -/
theorem twoAtomicAdds_overruns :
    ∃ s₀, Session.new twoAtomicAdds {} (({} : World).setUav (.ofRegister 0 0) firstOfTwoNumbers) [{}] 0 {} = .ok s₀ ∧
      ∃ s, s₀.start.session.advance .unbound 2 = .ok s ∧ ∃ l, s.lanes[0]? = some l ∧
      (∃ x, l.nextAccess? s.program s.analyses = some x ∧ (x.2.1 = .atomicBinOp ∧
        ∃ address, l.address x.1 2 false = .ok address ∧ address = .buffer 0 4)) ∧
      (∃ seen, s.world.uavs.get? (.ofRegister 0 0) = some seen ∧ (seen.data = [8, 0, 0, 0, 7, 0, 0, 0] ∧
        seen.startOf (numberAtOffset 4) numberFormat 0 4 = 4 ∧ seen.stopOf (numberAtOffset 4) numberFormat = 4)) ∧
      (∃ r, (l.step (s.setting .unbound 0) s.world).lane.value? ⟨2⟩ = some r ∧ r.get 0 = 0) ∧
      ∃ left, (l.step (s.setting .unbound 0) s.world).world.uavs.get? (.ofRegister 0 0) = some left ∧
        left.data = [8, 0, 0, 0, 5, 0, 0, 0] := by
  decide +kernel

end Lane

end Lockstep
