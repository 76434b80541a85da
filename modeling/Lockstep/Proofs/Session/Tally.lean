import Lockstep.Proofs.Lane.Tally
import Lockstep.Proofs.Session.Changes
import Lockstep.Proofs.Session.Journal

set_option autoImplicit false

/-! # No addition is lost

The steps of the lanes of a session are moves one after another, in whatever order the lanes take their turns. If
they only add to a number, in a read-write buffer or in a global variable, it becomes the sum, and each addition
gives the sum before it (`Move.Chain.sums_up`). -/

namespace Lockstep

namespace Move

variable {t : Move} {ts : List Move} {hosts : List Host} {w : World}

/-- A move whose instruction does not write to memory leaves all numbers in global variables as they are. -/
theorem sparesGlobal_of_not_writes {base : Id} {start : Nat} (hok : t.Succeeds)
    (h : ∀ {a i}, t.lane.nextInstr t.setting.program t.setting.analyses = .ok (a, i) → ¬ i.writesMemory) :
    t.SparesGlobal base start := by
  obtain ⟨state, hok⟩ := hok
  intro n hn
  have hmemory : t.left.memory = t.world.memory := by
    by_cases hfin : t.lane.isFinished
    · exact congrArg World.memory (Lane.world_step_of_isFinished hfin)
    · obtain ⟨a, i, hnext, hdoes⟩ := Lane.does_of_step hfin hok
      by_contra hchanged
      obtain ⟨_, _, ⟨hwrites, -⟩, -⟩ := hdoes.reaches.change hchanged
      exact h hnext hwrites
  unfold InGlobal
  rwa [hmemory]

/-- When lanes move one after another, in whatever order, and only make atomic additions to a number of 32 bits in
    a read-write buffer, then no addition is lost: the number becomes what it was in the first content of the
    buffer and the sum of all that is added, and the additions give the partial sums. So it is with a number in a
    global variable. -/
theorem Chain.sums_up (hchain : Chain w ts) (hok : ∀ t ∈ ts, t.Succeeds)
    (hhosts : ∀ t ∈ ts, t.setting.host ∈ hosts) :
    (∀ {slot start xs}, Tally (AddsToBuffer slot start) (SparesBuffer slot start) ts xs → xs ≠ [] →
      ∃ s s', w.Origin hosts slot (after w ts) s ∧ (after w ts).uavs.get? slot = some s' ∧
        Sums (numberAt s start) xs (numberAt s' start)) ∧
    ∀ {base start xs n}, Tally (AddsToGlobal base start) (SparesGlobal base start) ts xs →
      InGlobal base start w n → ∃ n', InGlobal base start (after w ts) n' ∧ Sums n xs n' := by
  refine ⟨fun htally hne => htally.sums_buffer hchain hok hhosts hne, fun htally hn => ?_⟩
  refine htally.sums_global hchain hok ?_ hn
  obtain ⟨a, -, rfl⟩ := hn
  exact Bytes.wordAt_lt ..

end Move

namespace Session

/-- Adds to a counter in a buffer and to a total in a global variable. -/
def twoCounters : Program :=
  { stage := .compute
    globals := [{ id := ⟨0⟩, name := "total", ty := .pointer (.int 32) .groupShared, init := some (.int 32 7) }]
    resources := [{ name := "counter", cls := .uav, kind := .typedBuffer }]
    functions := #[{
      name := "twoCounters"
      blocks := #[{}]
      instrs := #[
        { op := .call, ty := .handle, result := some ⟨1⟩, callee := some (.intrinsic .createHandle),
          args := [.const (.int 32 1), .const (.int 32 0), .const (.int 32 0)] },
        { op := .call, ty := .int 32, result := some ⟨2⟩, callee := some (.intrinsic .atomicBinOp),
          args := [.ref ⟨1⟩, .const (.int 32 0), .const (.int 32 0), .const (.int 32 0), .const (.int 32 0),
            .const (.int 32 5)] },
        { op := .atomicAdd, ty := .int 32, result := some ⟨3⟩, args := [.ref ⟨0⟩, .const (.int 32 4)] },
        { op := .ret }] }]
    idCount := 4 }

/-- The counter with a number. -/
def counterOf (n : UInt8) : Snapshot :=
  { info := { numElements := 1, format := .new 4 1 .uInt }, data := [n, 0, 0, 0] }

/-- A host that has the counter at ten. -/
def counterHost : Host := .withUav (counterOf 10)

/-- The format of the counter. -/
def counterFormat : ViewFormat := { byteWidth := 4, numComps := 1, kind := .uInt, stride := 4 }

/-- The move adds five to the counter, which has a number. -/
def AddsToCounter (n : UInt8) (t : Move) : Prop :=
  (∃ x, t.access? = some x ∧ (x.2.1 = .atomicBinOp ∧ x.2.2.ref.cls = .uav ∧ x.2.2.ref.slot = .ofRegister 0 0 ∧
    x.2.2.structStride? = none ∧ ∃ n, t.lane.argWord32 x.1 1 = .ok n ∧ (n = 0 ∧
    ∃ address, t.lane.address x.1 2 false = .ok address ∧ (address = .buffer 0 0 ∧
    ∃ v, t.lane.arg x.1 5 = .ok v ∧ (v.get 0 = 5 ∧ ∃ b, x.1.blank = .ok b ∧ (b.1 = ⟨2⟩ ∧ b.2.elem = .sInt)))))) ∧
  (t.world.uav t.setting.host (.ofRegister 0 0)).1 = counterOf n

/-- The move adds four to the total. -/
def AddsToTotal (t : Move) : Prop :=
  ¬ t.lane.isFinished ∧ ¬ t.lane.memory.hasAllocation ⟨0⟩ ∧
  ∃ x, t.lane.nextInstr t.setting.program t.setting.analyses = .ok x ∧ (x.2.op = .atomicAdd ∧
    x.2.result = some ⟨3⟩ ∧ ∃ src, x.2.argId 0 = .ok src ∧ ((∃ q, t.lane.resolve t.world.memory src = .ok q ∧
      (q.base = ⟨0⟩ ∧ q.offset = 0 ∧ q.size = 4 ∧ q.pointee matches .scalar .int 32)) ∧
    ∃ v, t.lane.arg x.2 1 = .ok v ∧ (v.get 0 = 4 ∧ v.elem.bits = 32)))

set_option synthInstance.maxSize 512 in
instance (n : UInt8) (t : Move) : Decidable (AddsToCounter n t) := inferInstanceAs (Decidable (_ ∧ _))

set_option synthInstance.maxSize 512 in
instance (t : Move) : Decidable (AddsToTotal t) := inferInstanceAs (Decidable (_ ∧ _))

theorem AddsToCounter.adds {n : UInt8} {t : Move} (h : AddsToCounter n t) :
    Move.AddsToBuffer (.ofRegister 0 0) 0 { move := t, operand := 5, result := some ⟨2⟩ } := by
  obtain ⟨⟨⟨i, op, hd⟩, hnext, rfl, hcls, hslot, hstride, _, hnumber, rfl, _, haddress, rfl, v, hv, hfive,
    ⟨id, result⟩, hblank, rfl, helem⟩, hseen⟩ := h
  dsimp only at helem
  obtain ⟨a, ha⟩ : ∃ a : ViewAccess, a = { structStride := hd.structStride?, elem := result.elem, columns := 1
                                           address := .buffer 0 0 } := ⟨_, rfl⟩
  have ha' := ha
  rw [hstride, helem] at ha'
  have hformat : (counterOf n).formatAt? a = some counterFormat := by
    rw [ha']
    rfl
  have hsize : result.elem.byteSize = 4 := by rw [helem]; rfl
  have hwords : (counterOf n).HoldsWords a.elem := by
    rw [ha']
    exact ⟨.inl rfl, .inr rfl⟩
  have hstart : (counterOf n).startOf a counterFormat 0 0 = 0 := by
    rw [ha']
    rfl
  have hinside : (counterOf n).ComponentInside a counterFormat 0 := by
    rw [ha']
    exact ⟨Nat.one_pos, Nat.le_refl 4, Nat.le_refl 4⟩
  have hlength : (counterOf n).data.length < 2 ^ 32 := show 4 < 2 ^ 32 by decide
  rw [← hfive]
  exact .mk hnext hcls hslot hnumber rfl haddress hv hblank hsize ha hseen rfl hlength hwords hformat hstart hinside

theorem AddsToTotal.adds {t : Move} (h : AddsToTotal t) :
    Move.AddsToGlobal ⟨0⟩ 0 { move := t, operand := 4, result := some ⟨3⟩ } := by
  obtain ⟨hrun, hown, ⟨a, i⟩, hnext, hop, hresult, src, hsrc, ⟨q, hq, hbase, hoffset, hsize, hpointee⟩, v, hv,
    hfour, hbits⟩ := h
  have hq' : q = { base := ⟨0⟩, offset := 0, size := 4, pointee := .int 32 } := by
    obtain ⟨base, offset, size, pointee⟩ := q
    dsimp only at hpointee
    split at hpointee
    · cases hbase
      cases hoffset
      cases hsize
      rfl
    · cases hpointee
  rw [← hfour, ← show i.result = some ⟨3⟩ from hresult]
  exact .mk hrun hnext hop hsrc (hq' ▸ hq) hown hv hbits

set_option synthInstance.maxSize 512 in
/-- Two lanes add to the counter that the host answers with, and then to the total. -/
theorem twoCounters_sum_up :
    ∃ (s₀ : Session) (ts : List Move) (xs ys : List Move.Addition) (s : Snapshot) (n : Nat),
      Session.new twoCounters {} {} [{}, {}] 0 { stepsPerContinue := 3 } = .ok s₀ ∧
      s₀.moves [(counterHost, 1), (counterHost, 4)] = ts ∧
      xs.map (·.operand) = [5, 5] ∧ ys.map (·.operand) = [4, 4] ∧
      (Move.after s₀.world ts).uavs.get? (.ofRegister 0 0) = some s ∧
      Move.Sums 10 xs (Move.numberAt s 0) ∧ Move.numberAt s 0 = 20 ∧
      Move.InGlobal ⟨0⟩ 0 (Move.after s₀.world ts) n ∧ Move.Sums 7 ys n ∧ n = 15 := by
  have h : ∃ s₀, Session.new twoCounters {} {} [{}, {}] 0 { stepsPerContinue := 3 } = .ok s₀ ∧
      (s₀.world.uavs.get? (.ofRegister 0 0)).isNone ∧
      (∃ a, s₀.world.memory.allocation? ⟨0⟩ = some a ∧ (a.bytes.wordAt 0 4).toNat = 7) ∧
      ∃ ts, some (s₀.moves [(counterHost, 1), (counterHost, 4)]) = some ts ∧ ts.length = 6 ∧
      (∀ t ∈ ts, t.Succeeds) ∧ (∀ t ∈ ts.take 2, t.access?.isNone) ∧
      (∀ t ∈ ts.take 4, ∃ x, t.lane.nextInstr t.setting.program t.setting.analyses = .ok x ∧ ¬ x.2.writesMemory) ∧
      (∀ t ∈ ts.drop 4, t.access?.isNone ∧ AddsToTotal t) ∧
      (∃ t, ts[2]? = some t ∧ AddsToCounter 10 t) ∧ ∃ t, ts[3]? = some t ∧ AddsToCounter 15 t := by
    decide +kernel
  obtain ⟨s₀, hnew, hnone, ⟨a, ha, hseven⟩, ts, hts, hlength, hok, hquiet, haside, hout, ⟨t₃, ht₃, hfirst⟩, t₄,
    ht₄, hsecond⟩ := h
  obtain ⟨_, hchain, hhosts, -, -⟩ := s₀.exists_plays [(counterHost, 1), (counterHost, 4)]
  have hts := Option.some.inj hts
  rw [hts] at hchain hhosts
  have hspares : ∀ t : Move, t.access?.isNone → t.SparesBuffer (.ofRegister 0 0) 0 := fun t ht =>
    Move.sparesBuffer_of_not_writes fun i op hd hnext => by
      rw [hnext] at ht
      cases ht
  have hkeeps : ∀ t ∈ ts.take 4, t.SparesGlobal ⟨0⟩ 0 := fun t ht => by
    obtain ⟨x, hx, hno⟩ := haside t ht
    refine Move.sparesGlobal_of_not_writes (hok t (List.mem_of_mem_take ht)) fun hnext => ?_
    cases hx.symm.trans hnext
    exact hno
  obtain ⟨t₁, t₂, _, _, t₅, t₆, rfl⟩ : ∃ t₁ t₂ t₃ t₄ t₅ t₆, ts = [t₁, t₂, t₃, t₄, t₅, t₆] := by
    rcases ts with _ | ⟨t₁, _ | ⟨t₂, _ | ⟨t₃, _ | ⟨t₄, _ | ⟨t₅, _ | ⟨t₆, _ | _⟩⟩⟩⟩⟩⟩ <;> simp at hlength ⊢
  cases ht₃
  cases ht₄
  simp only [List.take_succ_cons, List.take_zero, List.drop_succ_cons, List.drop_zero, List.forall_mem_cons]
    at hquiet hkeeps hout
  obtain ⟨hquiet₁, hquiet₂, -⟩ := hquiet
  obtain ⟨hkeeps₁, hkeeps₂, hkeeps₃, hkeeps₄, -⟩ := hkeeps
  obtain ⟨⟨hquiet₅, hout₅⟩, ⟨hquiet₆, hout₆⟩, -⟩ := hout
  obtain ⟨hbuffer, hglobal⟩ := Move.Chain.sums_up hchain hok hhosts
  obtain ⟨s, s', horigin, hs', hsums⟩ := hbuffer
    (.spares (hspares t₁ hquiet₁) (.spares (hspares t₂ hquiet₂) (.adds hfirst.adds (.adds hsecond.adds
      (.spares (hspares t₅ hquiet₅) (.spares (hspares t₆ hquiet₆) .nil)))))) (by simp)
  obtain ⟨n, hn, hsums'⟩ := hglobal (.spares hkeeps₁ (.spares hkeeps₂ (.spares hkeeps₃ (.spares hkeeps₄
    (.adds hout₅.adds (.adds hout₆.adds .nil)))))) ⟨a, ha, hseven⟩
  have hten : Move.numberAt s 0 = 10 := by
    cases horigin with
    | there hs =>
        rw [hs] at hnone
        cases hnone
    | @fetched host log _ hhost _ _ =>
        obtain rfl : host = counterHost := by simpa using hhost
        have hcounter : Move.numberAt (counterOf 10) 0 = 10 := by decide
        exact hcounter
  rw [hten] at hsums
  exact ⟨s₀, _, _, _, s', n, hnew, hts, rfl, rfl, hs', hsums, hsums.last_eq, hn, hsums', hsums'.last_eq⟩

end Session

end Lockstep
