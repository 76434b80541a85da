import Lockstep.Proofs.Lane.Moves
import Lockstep.Proofs.Lane.Update
import Mathlib.Algebra.BigOperators.Group.List.Basic
import Mathlib.Algebra.Ring.Nat

set_option autoImplicit false

/-! # Additions of several lanes

An atomic addition finds a number, gives it, and leaves the sum, whether the number is in a read-write buffer
(`Move.AddsToBuffer.step`) or in a global variable (`Move.AddsToGlobal.step`). So when lanes move one after
another and only add to a number, it becomes what it was at first and all that is added to it, and each addition
gives the sum before it (`Move.Tally.sums`, by induction on the moves).

A global variable is there from the start, but a buffer comes from the host when a move first uses it: the moves
before the first addition may find nothing, and only that addition says that there is a number
(`Move.Tally.sums_buffer`). -/

namespace Lockstep

/-- The sum in 32 bits. -/
theorem IntOp.toNat_add (x y : UInt64) : (IntOp.add.apply 32 x y).toNat = (x.toNat + y.toNat) % 2 ^ 32 := by
  show ((x &&& mask 32) + (y &&& mask 32) &&& mask 32).toNat = _
  rw [toNat_and_mask, UInt64.toNat_add, toNat_and_mask, toNat_and_mask]
  omega

/-- What is written is found in its place. -/
theorem Bytes.wordAt_splice? {bs new out : Bytes} {start : Nat} (h : bs.splice? start new = some out) :
    out.wordAt start new.length = toWord new := by
  unfold splice? at h
  split at h
  · next hle =>
      cases h
      have hstart : (bs.take start).length = start := List.length_take_of_le (by omega)
      have happend := wordAt_append (bs.take start) (new ++ bs.drop (start + new.length)) 0 new.length
      rw [hstart, Nat.add_zero, ← List.append_assoc] at happend
      rw [happend, wordAt_eq, List.length_append, if_pos (by omega), List.drop_zero, List.take_left]
  · cases h

/-- An access that gives a value assigns it if the step succeeds. -/
theorem Lane.value_of_access {l : Lane} {s : Setting} {w : World} {i : Instr} {op : Intrinsic} {h : Handle}
    {id : Id} {v : Variable} {left : Snapshot} {state : StepState}
    (hnext : l.nextAccess? s.program s.analyses = some (i, op, h)) (hcls : h.ref.cls = .uav)
    (hok : (l.step s w).result = .ok state)
    (haccess : l.access i op h (w.uav s.host h.ref.slot).1 = .ok (.value id v, left)) :
    (l.step s w).lane.value? id = some v ∧
      (l.step s w).world = (w.uav s.host h.ref.slot).2.setUav h.ref.slot left := by
  obtain ⟨hfin, _, _, _, hinstr, hop, hacc, -⟩ := nextAccess?_eq_some_iff.1 hnext
  obtain ⟨m, hm, hstep, -⟩ := execute_of_step hfin hok
  obtain ⟨a, i', o, m₁, hinstr', ho, hconclude⟩ := Step.execute_iff.1 hm
  cases hinstr.symm.trans hinstr'
  obtain ⟨e, left', rfl, haccess', hworld⟩ := access_of_instruction hnext hcls (congrArg Prod.fst ho)
  cases haccess.symm.trans haccess'
  refine ⟨?_, hworld⟩
  rcases Step.holdings_of_conclude hconclude with ⟨_, _, _, heq, hset⟩ | ⟨hno, -⟩
  · cases heq
    rw [Instr.assigned, if_neg (Instr.not_isFlushing_of_accesses hop hacc)] at hset
    rw [hstep]
    exact (congrFun (congrArg Holdings.values hset) id).trans (Function.update_self ..)
  · exact absurd rfl (hno id v true)

namespace Move

/-! ## Sums -/

/-- An addition that a move makes: the word that it adds, and the identifier that gets what has been there. -/
structure Addition where
  move : Move
  operand : UInt64
  result : Option Id

namespace Addition

/-- The addition gives a number to the identifier of its result. -/
def Gives (x : Addition) (n : Nat) : Prop :=
  ∀ id, x.result = some id → ∃ r, x.move.stepped.lane.value? id = some r ∧ (r.get 0).toNat = n

/-- All that is added. -/
def total (xs : List Addition) : Nat := (xs.map (·.operand.toNat)).sum

end Addition

variable {t : Move} {ts : List Move} {x : Addition} {xs : List Addition} {w : World} {n first last : Nat}

/-- Additions one after another make one number of another, and each of them gives the sum so far. -/
structure Sums (first : Nat) (xs : List Addition) (last : Nat) : Prop where
  last_eq : last = (first + Addition.total xs) % 2 ^ 32
  gives : ∀ {k : Nat} {x : Addition}, xs[k]? = some x → x.Gives ((first + Addition.total (xs.take k)) % 2 ^ 32)

theorem Sums.nil (h : n < 2 ^ 32) : Sums n [] n :=
  ⟨(Nat.mod_eq_of_lt h).symm, nofun⟩

theorem Sums.cons (hlt : first < 2 ^ 32) (hx : x.Gives first)
    (h : Sums ((first + x.operand.toNat) % 2 ^ 32) xs last) : Sums first (x :: xs) last := by
  have hsum : ∀ ys, ((first + x.operand.toNat) % 2 ^ 32 + Addition.total ys) % 2 ^ 32 =
      (first + Addition.total (x :: ys)) % 2 ^ 32 := fun ys => by
    rw [Nat.mod_add_mod, Nat.add_assoc]
    rfl
  refine ⟨hsum xs ▸ h.last_eq, fun {k y} hy => ?_⟩
  cases k with
  | zero =>
      cases hy
      rw [List.take_zero, show Addition.total [] = 0 from rfl, Nat.add_zero, Nat.mod_eq_of_lt hlt]
      exact hx
  | succ k => exact hsum _ ▸ h.gives hy

/-- Of some moves, these in their order make additions, and the others leave alone what is added to. -/
inductive Tally (Adds : Addition → Prop) (Spares : Move → Prop) : List Move → List Addition → Prop
  | nil : Tally Adds Spares [] []
  | adds {x : Addition} {ts : List Move} {xs : List Addition} (hx : Adds x) (h : Tally Adds Spares ts xs) :
      Tally Adds Spares (x.move :: ts) (x :: xs)
  | spares {t : Move} {ts : List Move} {xs : List Addition} (ht : Spares t) (h : Tally Adds Spares ts xs) :
      Tally Adds Spares (t :: ts) xs

/-- If each addition gives the number that it finds and leaves the sum, and the other moves leave the number, then
    moves one after another sum up. -/
theorem Tally.sums {Adds : Addition → Prop} {Spares : Move → Prop} {Holds : World → Nat → Prop}
    (hadds : ∀ {x n}, Adds x → x.move.Succeeds → Holds x.move.world n →
      x.Gives n ∧ Holds x.move.left ((n + x.operand.toNat) % 2 ^ 32))
    (hspares : ∀ {t n}, Spares t → t.Succeeds → Holds t.world n → Holds t.left n)
    (h : Tally Adds Spares ts xs) (hchain : Chain w ts) (hok : ∀ t ∈ ts, t.Succeeds) (hlt : first < 2 ^ 32)
    (hfirst : Holds w first) : ∃ last, Holds (after w ts) last ∧ Sums first xs last := by
  induction h generalizing w first with
  | nil => exact ⟨first, hfirst, .nil hlt⟩
  | adds hx _ ih =>
      obtain ⟨rfl, -, hchain⟩ := hchain
      obtain ⟨hok, hrest⟩ := List.forall_mem_cons.1 hok
      obtain ⟨hgives, hleft⟩ := hadds hx hok hfirst
      obtain ⟨last, hlast, hsums⟩ := ih hchain hrest (Nat.mod_lt _ (by decide)) hleft
      exact ⟨last, hlast, hsums.cons hlt hgives⟩
  | spares ht _ ih =>
      obtain ⟨rfl, -, hchain⟩ := hchain
      obtain ⟨hok, hrest⟩ := List.forall_mem_cons.1 hok
      exact ih hchain hrest hlt (hspares ht hok hfirst)

/-! ## Buffers -/

variable {slot : Slot} {start : Nat} {hosts : List Host}

/-- The number of 32 bits at a byte of a snapshot. -/
def numberAt (s : Snapshot) (start : Nat) : Nat := (s.data.wordAt start 4).toNat

theorem numberAt_lt (s : Snapshot) (start : Nat) : numberAt s start < 2 ^ 32 := Bytes.wordAt_lt ..

theorem numberAt_setWord {s : Snapshot} (h : start + 4 ≤ s.data.length) (w : UInt64) :
    numberAt (s.setWord start 4 w) start = w.toNat % 2 ^ 32 := by
  have hfits : (w &&& mask 32).toNat = w.toNat % 2 ^ 32 := toNat_and_mask w 32
  have hlt : (w &&& mask 32).toNat < 2 ^ (8 * 4) := hfits ▸ Nat.mod_lt _ (by decide)
  have hsame : s.data.setWordAt start 4 w = s.data.setWordAt start 4 (w &&& mask 32) :=
    Bytes.setWordAt_congr _ _ (by rw [hfits, Nat.mod_mod])
  rw [numberAt, Snapshot.setWord, hsame, Bytes.wordAt_setWordAt_self h hlt, hfits]

/-- The move adds to a number of 32 bits that lies inside the view and the data of a read-write buffer. -/
inductive AddsToBuffer (slot : Slot) (start : Nat) : Addition → Prop
  | mk {t : Move} {i : Instr} {h : Handle} {index : UInt32} {offset : UInt64} {number : UInt32} {id : Id}
      {result operand : Variable} {a : ViewAccess} {f : ViewFormat} {seen : Snapshot}
      (hnext : t.access? = some (i, .atomicBinOp, h)) (hcls : h.ref.cls = .uav) (hslot : h.ref.slot = slot)
      (hnumber : t.lane.argWord32 i 1 = .ok number) (hkind : AtomicKind.ofNumber? number.toNat = some .add)
      (haddress : t.lane.address i 2 false = .ok (.buffer index offset)) (hoperand : t.lane.arg i 5 = .ok operand)
      (hblank : i.blank = .ok (id, result)) (hsize : result.elem.byteSize = 4)
      (ha : a = { structStride := h.structStride?, elem := result.elem, columns := 1
                  address := .buffer index offset })
      (hseen : (t.world.uav t.setting.host slot).1 = seen) (htexture : seen.isTexture = false)
      (hlength : seen.data.length < 2 ^ 32) (hwords : seen.HoldsWords a.elem)
      (hformat : seen.formatAt? a = some f) (hstart : seen.startOf a f index offset = start)
      (hinside : seen.ComponentInside a f start) :
      AddsToBuffer slot start { move := t, operand := operand.get 0, result := some id }

/-- The move leaves the number at a byte of a read-write resource as it is. -/
def SparesBuffer (slot : Slot) (start : Nat) (t : Move) : Prop :=
  numberAt (t.change slot (t.world.uav t.setting.host slot).1) start =
    numberAt (t.world.uav t.setting.host slot).1 start

instance (slot : Slot) (start : Nat) (t : Move) : Decidable (t.SparesBuffer slot start) :=
  inferInstanceAs (Decidable (_ = _))

/-- A move that does not write to the resource leaves all its numbers as they are. -/
theorem sparesBuffer_of_not_writes (h : ∀ i op hd, t.access? = some (i, op, hd) → hd.ref.cls = .uav →
    hd.ref.slot = slot → ¬ op.writesResource) : t.SparesBuffer slot start := by
  unfold SparesBuffer change
  split
  · next i op hd hnext =>
      split
      · next hhere =>
          have hloads : ∀ seen, t.lane.access i op hd seen = t.lane.loadFrom i op hd seen := fun seen => by
            have hno := h i op hd hnext hhere.1 hhere.2
            cases op <;> first | rfl | exact absurd rfl hno
          rw [hloads]
          split
          · next e left hok =>
              rw [Lane.left_of_loadFrom hok]
          · rfl
      · rfl
  · rfl

/-- The number is at a byte of the snapshot of a read-write resource that is there. -/
def InBuffer (slot : Slot) (start : Nat) (w : World) (n : Nat) : Prop :=
  ∃ s, w.uavs.get? slot = some s ∧ numberAt s start = n

/-- An addition gives the number that it finds in the buffer and leaves the sum there. -/
theorem AddsToBuffer.step (h : AddsToBuffer slot start x) (hok : x.move.Succeeds) {seen : Snapshot}
    (hseen : (x.move.world.uav x.move.setting.host slot).1 = seen) : x.Gives (numberAt seen start) ∧
      InBuffer slot start x.move.left ((numberAt seen start + x.operand.toNat) % 2 ^ 32) := by
  obtain ⟨state, hok⟩ := hok
  obtain ⟨hnext, hcls, rfl, hnumber, hkind, haddress, hoperand, hblank, hsize, ha, hseen', htexture, hlength,
    hwords, hformat, hstart, hinside⟩ := h
  rename_i t i hd index offset number id result operand a f seen'
  obtain rfl : seen' = seen := hseen'.symm.trans hseen
  have helem : a.elem = result.elem := by rw [ha]
  have hbits : result.elem.bits = 32 := by rw [ElemType.bits_of_isWord (helem ▸ hwords.1), hsize]
  have hchange : t.lane.atomicChange i .atomicBinOp result.elem.bits =
      .ok fun old => IntOp.add.apply 32 old (operand.get 0) := by
    rw [Lane.atomicChange, if_pos rfl, hnumber, hbits]
    dsimp only [bind, Except.bind]
    rw [hkind, hoperand]
    rfl
  obtain ⟨v, hv, haccess⟩ := Lane.access_of_update (.inl rfl) haddress hblank hchange ha htexture
  rw [Snapshot.update?_of_inside (by rw [ha]) hformat hwords hstart hinside hlength, helem, hsize] at hv haccess
  obtain ⟨hvalue, hworld⟩ := Lane.value_of_access hnext hcls hok (by
    rw [hseen']
    exact haccess)
  refine ⟨?_, seen'.setWord start 4 (IntOp.add.apply 32 (seen'.data.wordAt start 4) (operand.get 0)), ?_, ?_⟩
  · rintro _ ⟨⟩
    exact ⟨v, hvalue, congrArg UInt64.toNat hv⟩
  · rw [left, stepped, hworld]
    exact Table.get?_insert_self ..
  · have hdata := hinside.data
    rw [hwords.width hformat, helem, hsize] at hdata
    rw [numberAt_setWord hdata, IntOp.toNat_add, Nat.mod_mod]
    rfl

theorem AddsToBuffer.step_of_inBuffer (h : AddsToBuffer slot start x) (hok : x.move.Succeeds)
    (hn : InBuffer slot start x.move.world n) :
    x.Gives n ∧ InBuffer slot start x.move.left ((n + x.operand.toNat) % 2 ^ 32) := by
  obtain ⟨s, hs, rfl⟩ := hn
  exact h.step hok (by rw [World.uav_of_cached hs])

/-- A snapshot that is there after a move that leaves the number has the one that the move sees. -/
theorem SparesBuffer.numberAt_left (h : t.SparesBuffer slot start) (hok : t.Succeeds) {s : Snapshot}
    (hs : t.left.uavs.get? slot = some s) :
    numberAt s start = numberAt (t.world.uav t.setting.host slot).1 start := by
  rcases touches hok (List.mem_singleton_self _) slot with ⟨hsame, -⟩ | ⟨-, hleft⟩
  · rw [World.uav_of_cached (hsame.symm.trans hs)]
  · cases hs.symm.trans hleft
    exact h

theorem SparesBuffer.step (h : t.SparesBuffer slot start) (hok : t.Succeeds) (hn : InBuffer slot start t.world n) :
    InBuffer slot start t.left n := by
  obtain ⟨s, hs, rfl⟩ := hn
  obtain ⟨s', hs'⟩ : ∃ s', t.left.uavs.get? slot = some s' := by
    rcases touches hok (List.mem_singleton_self _) slot with ⟨hsame, -⟩ | ⟨-, hleft⟩
    · exact ⟨s, hsame.trans hs⟩
    · exact ⟨_, hleft⟩
  refine ⟨s', hs', (h.numberAt_left hok hs').trans ?_⟩
  rw [World.uav_of_cached hs]

/-- A resource that is there after a move had been there, or the move has fetched it. -/
theorem origin_of_left {s : Snapshot} (hok : t.Succeeds) (hhost : t.setting.host ∈ hosts)
    (hs : t.left.uavs.get? slot = some s) :
    t.world.Origin hosts slot t.left (t.world.uav t.setting.host slot).1 := by
  rcases touches hok hhost slot with ⟨hsame, -⟩ | ⟨horigin, -⟩
  · rw [World.uav_of_cached (hsame.symm.trans hs)]
    exact .there (hsame.symm.trans hs)
  · exact horigin

/-- A move that leaves the number leaves that of the first content. -/
theorem SparesBuffer.origin {w' : World} {s : Snapshot} (h : t.SparesBuffer slot start) (hok : t.Succeeds)
    (hhost : t.setting.host ∈ hosts) (hlog : t.left.log.toList <+: w'.log.toList)
    (hs : t.left.Origin hosts slot w' s) :
    ∃ s', t.world.Origin hosts slot w' s' ∧ numberAt s' start = numberAt s start := by
  cases hs with
  | there hs =>
      have horigin := origin_of_left hok hhost hs
      exact ⟨_, horigin.of_prefix hlog, (h.numberAt_left hok hs).symm⟩
  | fetched hnone hhost' hlog' hrequest =>
      rcases touches hok hhost slot with ⟨hsame, -⟩ | ⟨-, hleft⟩
      · obtain ⟨_, hstep⟩ := Lane.fetches_of_step t.lane t.setting t.world
        exact ⟨_, .fetched (hsame.symm.trans hnone) hhost' (hstep.log_prefix.trans hlog') hrequest, rfl⟩
      · cases hnone.symm.trans hleft

/-- Additions to a buffer sum up from its first content. -/
theorem Tally.sums_buffer (h : Tally (AddsToBuffer slot start) (SparesBuffer slot start) ts xs)
    (hchain : Chain w ts) (hok : ∀ t ∈ ts, t.Succeeds) (hhosts : ∀ t ∈ ts, t.setting.host ∈ hosts)
    (hne : xs ≠ []) : ∃ s s', w.Origin hosts slot (after w ts) s ∧ (after w ts).uavs.get? slot = some s' ∧
      Sums (numberAt s start) xs (numberAt s' start) := by
  -- the first addition leaves the buffer in the world, and all that follow find it there
  induction h generalizing w with
  | nil => exact absurd rfl hne
  | @adds x ts xs hx h _ =>
      obtain ⟨rfl, -, hchain⟩ := hchain
      obtain ⟨hok, hrest⟩ := List.forall_mem_cons.1 hok
      obtain ⟨hgives, hleft⟩ := hx.step hok rfl
      obtain ⟨_, hs, -⟩ := id hleft
      have hrun : ∃ n, InBuffer slot start (after x.move.left ts) n ∧ Sums _ xs n :=
        h.sums AddsToBuffer.step_of_inBuffer SparesBuffer.step hchain hrest (Nat.mod_lt _ (by decide)) hleft
      obtain ⟨_, ⟨s', hs', rfl⟩, hsums⟩ := hrun
      obtain ⟨_, hfetches⟩ := hchain.fetches
      have horigin := origin_of_left hok (hhosts _ List.mem_cons_self) hs
      exact ⟨_, s', horigin.of_prefix hfetches.log_prefix, hs',
        hsums.cons (numberAt_lt ..) hgives⟩
  | spares ht _ ih =>
      obtain ⟨rfl, -, hchain⟩ := hchain
      obtain ⟨hok, hrest⟩ := List.forall_mem_cons.1 hok
      obtain ⟨hhost, hhosts⟩ := List.forall_mem_cons.1 hhosts
      obtain ⟨s, s', horigin, hs', hsums⟩ := ih hchain hrest hhosts hne
      obtain ⟨_, hfetches⟩ := hchain.fetches
      obtain ⟨s₀, horigin₀, hsame⟩ := ht.origin hok hhost hfetches.log_prefix horigin
      exact ⟨s₀, s', horigin₀, hs', hsame ▸ hsums⟩

/-! ## Global variables -/

/-- The number of 32 bits at a byte of an allocation of the shared memory. -/
def InGlobal (base : Id) (start : Nat) (w : World) (n : Nat) : Prop :=
  ∃ a, w.memory.allocation? base = some a ∧ (a.bytes.wordAt start 4).toNat = n

/-- The move adds to a number of 32 bits in an allocation of the shared memory. -/
inductive AddsToGlobal (base : Id) (start : Nat) : Addition → Prop
  | mk {t : Move} {a : FunctionAnalysis} {i : Instr} {src : Id} {operand : Variable} (hrun : ¬ t.lane.isFinished)
      (hnext : t.lane.nextInstr t.setting.program t.setting.analyses = .ok (a, i)) (hop : i.op = .atomicAdd)
      (hsrc : i.argId 0 = .ok src)
      (hq : t.lane.resolve t.world.memory src = .ok { base, offset := start, size := 4, pointee := .int 32 })
      (hown : ¬ t.lane.memory.hasAllocation base) (hoperand : t.lane.arg i 1 = .ok operand)
      (hbits : operand.elem.bits = 32) :
      AddsToGlobal base start { move := t, operand := operand.get 0, result := i.result }

/-- The move leaves the number in an allocation of the shared memory as it is. -/
def SparesGlobal (base : Id) (start : Nat) (t : Move) : Prop :=
  ∀ n, InGlobal base start t.world n → InGlobal base start t.left n

/-- What an addition finds through a pointer to a number. -/
theorem get_found {base : Id} {start : Nat} {bytes : Bytes} {m : Memory}
    (h : m.read { base, offset := start, size := 4, pointee := .int 32 } = .ok bytes) :
    ∃ a, m.allocation? base = some a ∧
      (Step.found { base, offset := start, size := 4, pointee := .int 32 } bytes).get 0 =
        a.bytes.wordAt start 4 := by
  obtain ⟨a, ha, hslice⟩ := Memory.read_ok h
  refine ⟨a, ha, ?_⟩
  have hrange := hslice
  unfold Bytes.slice? at hrange
  split at hrange
  · next hrange' =>
      rw [Pointer.stop_eq (show 4 < UInt64.size by decide) hrange'.1] at hslice hrange'
      have hword : a.bytes.wordAt start 4 = Bytes.toWord bytes := by
        rw [Bytes.wordAt, hslice]
        rfl
      have hlength : bytes.length = 4 := by
        rw [Bytes.slice?, if_pos hrange'] at hslice
        cases hslice
        rw [List.length_take, List.length_drop]
        dsimp only at hrange' ⊢
        omega
      show (Value.zero.fill (1 * 1) fun c => bytes.wordAt (c * 4) 4).get 0 = _
      rw [Value.get_fill, if_pos (by decide), hword, Bytes.wordAt_eq, if_pos (by omega), Nat.zero_mul,
        List.drop_zero, List.take_of_length_le (Nat.le_of_eq hlength)]
  · cases hrange

/-- The bytes of a number that an addition has changed. -/
theorem toBytes_found {base : Id} {start : Nat} (bytes : Bytes) (bits : UInt64) :
    ((Step.found { base, offset := start, size := 4, pointee := .int 32 } bytes).set 0 bits).toBytes =
      Bytes.ofWord bits 4 := by
  show [0].flatMap (fun c => Bytes.ofWord
    (((Step.found { base, offset := start, size := 4, pointee := .int 32 } bytes).value.set 0 bits).get c) 4) = _
  rw [List.flatMap_singleton, Value.get_set_self _ (by decide)]

/-- What an atomic addition makes of what its lane holds. -/
theorem adds_of_does {l : Lane} {s : Setting} {i : Instr} {d : Holdings} (hdoes : l.Does s i w d)
    (hop : i.op = .atomicAdd) : ∃ src q operand bytes d₁ d₂, i.argId 0 = .ok src ∧
      l.resolve w.memory src = .ok q ∧ l.arg i 1 = .ok operand ∧ (l.holdings w).read q = .ok bytes ∧
      (l.holdings w).Writes q ((Step.found q bytes).set 0
        (IntOp.add.apply operand.elem.bits ((Step.found q bytes).get 0) (operand.get 0))).toBytes d₁ ∧
      d₁.Refreshes src q d₂ ∧
      d = i.result.elim d₂ fun id => d₂.set id ((Step.found q bytes).withName (i.resultName id)) := by
  have huses : i.usesMemory := by
    unfold Instr.usesMemory Instr.writesMemory
    rw [hop]
  cases hdoes with
  | rests hno => exact absurd huses hno
  | gives hno _ _ => exact absurd huses hno
  | allocates hop' _ _ => cases hop.symm.trans hop'
  | loads hop' _ _ _ _ => rcases hop' with hop' | hop' <;> cases hop.symm.trans hop'
  | derives hop' _ _ _ => cases hop.symm.trans hop'
  | stores hop' _ _ _ _ _ => rcases hop' with hop' | hop' <;> cases hop.symm.trans hop'
  | updates _ hsrc hq hoperand hread hbits hwrites hrefreshes =>
      rw [hop] at hbits
      cases hbits
      exact ⟨_, _, _, _, _, _, hsrc, hq, hoperand, hread, hwrites, hrefreshes, rfl⟩

/-- An addition gives the number that it finds in the allocation and leaves the sum there. -/
theorem AddsToGlobal.step {base : Id} (h : AddsToGlobal base start x) (hok : x.move.Succeeds)
    (hn : InGlobal base start x.move.world n) :
    x.Gives n ∧ InGlobal base start x.move.left ((n + x.operand.toNat) % 2 ^ 32) := by
  obtain ⟨state, hok⟩ := hok
  obtain ⟨hrun, hnext, hop, hsrc, hq, hown, hoperand, hbits⟩ := h
  rename_i t a i src operand
  obtain ⟨_, _, hnext', hdoes⟩ := Lane.does_of_step hrun hok
  cases hnext.symm.trans hnext'
  obtain ⟨src', q, operand', bytes, d₁, d₂, hsrc', hq', hoperand', hread, hwrites, hrefreshes, hd⟩ :=
    adds_of_does hdoes hop
  cases hsrc.symm.trans hsrc'
  cases hq.symm.trans hq'
  cases hoperand.symm.trans hoperand'
  -- the number is in the shared memory, since the lane has no such allocation of its own
  rw [Holdings.read, Holdings.memoryOf, if_neg (show ¬ (t.lane.holdings t.world).own.hasAllocation base from hown)]
    at hread
  obtain ⟨m, ha, hget⟩ := get_found hread
  obtain ⟨_, ha', rfl⟩ := hn
  cases ha.symm.trans ha'
  rw [hbits, toBytes_found, hget] at hwrites
  generalize Step.found _ bytes = found at hget hd
  constructor
  · intro id hid
    refine ⟨found.withName (i.resultName id), ?_, congrArg UInt64.toNat hget⟩
    refine (congrFun (congrArg Holdings.values hd) id).trans ?_
    rw [show i.result = some id from hid]
    exact Holdings.set_self ..
  · have hleft : t.left.memory = d₁.shared := by
      refine (congrArg Holdings.shared hd).trans (Eq.trans ?_ hrefreshes.memory_eq.2)
      cases i.result <;> rfl
    cases hwrites with
    | own hbase _ => exact absurd hbase hown
    | shared _ hwrite =>
        obtain ⟨-, m', new, hm', hnew, hself⟩ := Memory.splice_of_write hwrite
        cases ha.symm.trans hm'
        refine ⟨_, (congrArg (Memory.allocation? · base) hleft).trans hself, ?_⟩
        have hsum := IntOp.toNat_add (m.bytes.wordAt start 4) (operand.get 0)
        have hword := Bytes.wordAt_splice? hnew
        rw [Bytes.length_ofWord, Bytes.toWord_ofWord (hsum ▸ Nat.mod_lt _ (by decide))] at hword
        exact (congrArg UInt64.toNat hword).trans hsum

/-- Additions to a global variable sum up from what it has at first. -/
theorem Tally.sums_global {base : Id} (h : Tally (AddsToGlobal base start) (SparesGlobal base start) ts xs)
    (hchain : Chain w ts) (hok : ∀ t ∈ ts, t.Succeeds) (hlt : n < 2 ^ 32) (hn : InGlobal base start w n) :
    ∃ last, InGlobal base start (after w ts) last ∧ Sums n xs last :=
  h.sums AddsToGlobal.step (fun ht _ hn => ht _ hn) hchain hok hlt hn

end Move

end Lockstep
