import Lockstep.Proofs.Lane.Reload
import Lockstep.Proofs.View.Contents

set_option autoImplicit false

/-! # What an access does

A load, a store and an atomic update through a handle of a read-write resource, said by what they show of the
snapshot that they see and what they leave of it (`Lane.Performs`). Every access that succeeds does this
(`Lane.performs_of_access`). -/

namespace Lockstep

/-! ## Atomic updates -/

/-- What the resource atomic of a number makes of two numbers of `n` bits, the one that is there and the operand. -/
def atomicResult? {n : Nat} (number : Nat) (x y : BitVec n) : Option (BitVec n) :=
  match number with
  | 0 => some (x + y)
  | 1 => some (x &&& y)
  | 2 => some (x ||| y)
  | 3 => some (x ^^^ y)
  | 4 => some (if y.slt x then y else x)
  | 5 => some (if x.slt y then y else x)
  | 6 => some (if y.ult x then y else x)
  | 7 => some (if x.ult y then y else x)
  | _ => none

/-- An atomic of a number combines components as the number says, or exchanges them. -/
theorem AtomicKind.combine_eq {n number : Nat} (h0 : 0 < n) (hn : n ≤ 64) {kind : AtomicKind}
    (h : ofNumber? number = some kind) (old operand : UInt64) :
    (∃ result, atomicResult? number (lowBits n old) (lowBits n operand) = some result ∧
      kind.combine n old operand = wordOf result) ∨ number = 8 ∧ kind.combine n old operand = operand := by
  have happly : ∀ op : IntOp, op.apply n old operand = wordOf (op.meaning (lowBits n old) (lowBits n operand)) :=
    fun op => op.apply_eq h0 hn old operand
  unfold ofNumber? at h
  split at h <;> cases h
  · exact .inl ⟨_, rfl, happly .add⟩
  · exact .inl ⟨_, rfl, happly .and⟩
  · exact .inl ⟨_, rfl, happly .or⟩
  · exact .inl ⟨_, rfl, happly .xor⟩
  · exact .inl ⟨_, rfl, happly .sMin⟩
  · exact .inl ⟨_, rfl, happly .sMax⟩
  · exact .inl ⟨_, rfl, happly .uMin⟩
  · exact .inl ⟨_, rfl, happly .uMax⟩
  · exact .inr ⟨rfl, rfl⟩

namespace Lane

variable {l : Lane} {i : Instr} {op : Intrinsic} {h : Handle} {seen left : Snapshot} {e : Effect}

/-- What an atomic makes of a component of `n` bits. The exchange has the number 8 and puts its operand in the place of
    the component; a compare exchange does so with its second operand if the component is the first one. -/
inductive Changes (l : Lane) (i : Instr) (n : Nat) : Intrinsic → UInt64 → UInt64 → Prop
  | combined {number : UInt32} {operand : Variable} {old : UInt64} {result : BitVec n}
      (hnumber : l.argWord32 i 1 = .ok number) (hoperand : l.arg i 5 = .ok operand)
      (hresult : atomicResult? number.toNat (lowBits n old) (lowBits n (operand.get 0)) = some result) :
      Changes l i n .atomicBinOp old (wordOf result)
  | exchanged {operand : Variable} {old : UInt64} (hnumber : l.argWord32 i 1 = .ok 8)
      (hoperand : l.arg i 5 = .ok operand) : Changes l i n .atomicBinOp old (operand.get 0)
  | replaced {expected replacement : Variable} (hexpected : l.arg i 4 = .ok expected)
      (hreplacement : l.arg i 5 = .ok replacement) :
      Changes l i n .atomicCompareExchange (expected.get 0) (replacement.get 0)
  | kept {expected replacement : Variable} {old : UInt64} (hexpected : l.arg i 4 = .ok expected)
      (hreplacement : l.arg i 5 = .ok replacement) (hne : old ≠ expected.get 0) :
      Changes l i n .atomicCompareExchange old old

theorem changes_of_atomicChange {n : Nat} (h0 : 0 < n) (hn : n ≤ 64)
    (hop : op = .atomicBinOp ∨ op = .atomicCompareExchange) {change : UInt64 → UInt64}
    (hchange : l.atomicChange i op n = .ok change) (old : UInt64) : l.Changes i n op old (change old) := by
  unfold atomicChange at hchange
  rcases hop with rfl | rfl
  · rw [if_pos rfl] at hchange
    obtain ⟨number, hnumber, hrest⟩ := ok_of_bind hchange
    dsimp only at hrest
    cases hkind : AtomicKind.ofNumber? number.toNat with
    | none =>
        rw [hkind] at hrest
        cases hrest
    | some kind =>
        rw [hkind] at hrest
        obtain ⟨operand, hoperand, hpure⟩ := ok_of_bind hrest
        cases hpure
        rcases kind.combine_eq h0 hn hkind old (operand.get 0) with ⟨result, hresult, hcombine⟩ | ⟨height, hcombine⟩
        · dsimp only
          rw [hcombine]
          exact .combined hnumber hoperand hresult
        · dsimp only
          rw [hcombine]
          obtain rfl : number = 8 := UInt32.toNat_inj.1 height
          exact .exchanged hnumber hoperand
  · rw [if_neg (by decide)] at hchange
    obtain ⟨replacement, hreplacement, hrest⟩ := ok_of_bind hchange
    obtain ⟨expected, hexpected, hpure⟩ := ok_of_bind hrest
    cases hpure
    by_cases heq : old = expected.get 0
    · dsimp only
      rw [if_pos heq, heq]
      exact .replaced hexpected hreplacement
    · dsimp only
      rw [if_neg heq]
      exact .kept hexpected hreplacement heq

/-! ## Accesses -/

/-- The address that an access names by its operands from number `start` on: coordinates of a texture, and an index and
    a byte offset of anything else. Operands that are missing are zero. -/
inductive Names (l : Lane) (i : Instr) (start : Nat) (seen : Snapshot) : ElementAddress → Prop
  | texel {x y z : UInt32} (htexture : seen.isTexture) (hx : l.argWord32OrZero i start = .ok x)
      (hy : l.argWord32OrZero i (start + 1) = .ok y) (hz : l.argWord32OrZero i (start + 2) = .ok z) :
      Names l i start seen (.texel x y z)
  | buffer {index offset : UInt32} (htexture : seen.isTexture = false) (hindex : l.argWord32OrZero i start = .ok index)
      (hoffset : l.argWord32OrZero i (start + 1) = .ok offset) :
      Names l i start seen (.buffer index offset.toUInt64)

/-- What an access gives that sees a snapshot, and what it leaves of it. -/
inductive Performs (l : Lane) (i : Instr) (h : Handle) (seen : Snapshot) : Intrinsic → Effect → Snapshot → Prop
  | load {op : Intrinsic} {start columns : Nat} {id : Id} {ty : Ty} {address : ElementAddress} {a : ViewAccess}
      {r : Variable}
      (hop : (op, start) ∈ [(Intrinsic.bufferLoad, 1), (.rawBufferLoad, 1), (.textureLoad, 2)])
      (haddress : l.Names i start seen address) (hid : i.result = some id)
      (htypes : ∃ status rest, i.ty.structMembers? = some (ty :: status :: rest) ∧ columns = min (rest.length + 1) 4)
      (ha : a = { structStride := h.structStride?, elem := ty.elem, columns := columns.toUInt32, address })
      (helem : r.elem = ty.elem) (hcount : r.compCount = columns) (hget : ∀ c < columns, seen.Shows a c (r.get c)) :
      Performs l i h seen op (.value id r) seen
  | store {op : Intrinsic} {start first last : Nat} {values : Vector (Option Variable) 4} {v : Variable}
      {address : ElementAddress} {a : ViewAccess} {left : Snapshot}
      (hop : (op, start) ∈ [(Intrinsic.bufferStore, 3), (.rawBufferStore, 3), (.textureStore, 4)])
      (haddress : l.Names i 1 seen address)
      (hvalues : ∀ c (hc : c < 4), if i.hasArg (start + c) then ∃ v, l.arg i (start + c) = .ok v ∧ values[c] = some v
        else values[c] = none)
      (hfirst : values[first]? = some (some v) ∧ ∀ c (hc : c < 4), c < first → values[c] = none)
      (hlast : (∃ v, values[last]? = some (some v)) ∧ ∀ c (hc : c < 4), last < c → values[c] = none)
      (ha : a = { structStride := h.structStride?, elem := v.elem, columns := (last + 1).toUInt32, address })
      (hleft : seen.Stores a values left) : Performs l i h seen op .proceed left
  | update {op : Intrinsic} {start : Nat} {id : Id} {address : ElementAddress} {a : ViewAccess} {zero r : Variable}
      {left : Snapshot}
      (hop : (op, start) ∈ [(Intrinsic.atomicBinOp, 2), (.atomicCompareExchange, 1)])
      (haddress : l.Names i start seen address) (hblank : i.blank = .ok (id, zero))
      (ha : a = { structStride := h.structStride?, elem := zero.elem, columns := 1, address })
      (helem : r.elem = zero.elem) (hrest : ∀ c, c ≠ 0 → r.get c = 0)
      (hleft : seen.Updates a (l.Changes i zero.elem.bits op) (r.get 0) left) :
      Performs l i h seen op (.value id r) left

theorem Names.of_address {start : Nat} {address : ElementAddress}
    (h : l.address i start seen.isTexture = .ok address) : l.Names i start seen address := by
  unfold Lane.address at h
  obtain ⟨first, hfirst, h⟩ := ok_of_bind h
  obtain ⟨second, hsecond, h⟩ := ok_of_bind h
  split at h
  · next htexture =>
      obtain ⟨third, hthird, h⟩ := ok_of_bind h
      cases h
      exact .texel htexture hfirst hsecond hthird
  · next htexture =>
      cases h
      exact .buffer (eq_false_of_ne_true htexture) hfirst hsecond

/-- An address that an access names fits the resource. -/
theorem Names.suited {start : Nat} {a : ViewAccess} (h : l.Names i start seen a.address) : seen.Suited a := by
  intro x y z ha
  rw [ha] at h
  cases h with
  | texel htexture => exact htexture

theorem performs_of_loadFrom {start : Nat}
    (hop : (op, start) ∈ [(Intrinsic.bufferLoad, 1), (.rawBufferLoad, 1), (.textureLoad, 2)])
    (hok : l.loadFrom i op h seen = .ok (e, left)) : l.Performs i h seen op e left := by
  have hstart : op.addressArg = start := by
    simp only [List.mem_cons, List.not_mem_nil, or_false, Prod.mk.injEq] at hop
    rcases hop with ⟨rfl, rfl⟩ | ⟨rfl, rfl⟩ | ⟨rfl, rfl⟩ <;> rfl
  obtain ⟨id, hid, hok⟩ := ok_of_bind hok
  obtain ⟨⟨ty, columns⟩, htypes, hok⟩ := ok_of_bind hok
  obtain ⟨address, haddress, hok⟩ := ok_of_bind hok
  have hresult := Instr.yields_resultId id hid
  have hmembers := members_of_loadedTypes htypes
  have hle := le_of_loadedTypes htypes
  have hnames : l.Names i start seen address := .of_address (hstart ▸ haddress)
  dsimp only at hok
  obtain ⟨a, ha⟩ : ∃ a : ViewAccess, a =
      { structStride := h.structStride?, elem := ty.elem, columns := columns.toUInt32, address } := ⟨_, rfl⟩
  have hsuited : seen.Suited a := by
    subst ha
    exact hnames.suited (a := ⟨_, _, _, address⟩)
  have hshows : ∀ c < columns, seen.Shows a c (((seen.load? a).bind fun comps => comps[c]?).getD 0) := fun c hc =>
    Snapshot.shows_load? hsuited (by omega)
  have hcount : (Variable.row (i.resultName id) ty.elem columns.toUInt8).compCount = columns :=
    Variable.compCount_row (by omega)
  rw [← ha] at hok
  cases hload : seen.load? a with
  | none =>
      rw [hload] at hok hshows
      cases hok
      refine .load hop hnames hresult hmembers ha rfl hcount fun c hc => ?_
      rw [show (Variable.row (i.resultName id) ty.elem columns.toUInt8).get c = 0 from Value.get_zero c]
      exact hshows c hc
  | some comps =>
      rw [hload] at hok hshows
      cases hok
      refine .load hop hnames hresult hmembers ha rfl hcount fun c hc => ?_
      rw [get_row_fill (by omega) hc]
      exact hshows c hc

/-- The operands of a store that are there are its values. -/
theorem values_of_storedValues {start : Nat} {values : Vector (Option Variable) 4}
    (h : l.storedValues i start = .ok values) (c : Nat) (hc : c < 4) :
    if i.hasArg (start + c) then ∃ v, l.arg i (start + c) = .ok v ∧ values[c] = some v else values[c] = none := by
  have hvalue : ∀ {c v}, (if i.hasArg (start + c) then (l.arg i (start + c)).map some else .ok none) = .ok v →
      if i.hasArg (start + c) then ∃ x, l.arg i (start + c) = .ok x ∧ v = some x else v = none := by
    intro c v hv
    split at hv
    · next hhas =>
        rw [if_pos hhas]
        obtain ⟨x, hx, rfl⟩ := ok_of_map hv
        exact ⟨x, hx, rfl⟩
    · next hhas =>
        rw [if_neg hhas]
        cases hv
        rfl
  obtain ⟨v₀, h₀, h⟩ := ok_of_bind h
  obtain ⟨v₁, h₁, h⟩ := ok_of_bind h
  obtain ⟨v₂, h₂, h⟩ := ok_of_bind h
  obtain ⟨v₃, h₃, h⟩ := ok_of_bind h
  cases h
  match c, hc with
  | 0, _ => exact hvalue h₀
  | 1, _ => exact hvalue h₁
  | 2, _ => exact hvalue h₂
  | 3, _ => exact hvalue h₃

/-- The first value that is there stands behind those that are missing. -/
theorem getElem?_of_findSome? {list : List (Option Variable)} {v : Variable} (h : list.findSome? id = some v) :
    list[(list.takeWhile Option.isNone).length]? = some (some v) ∧
      ∀ c < (list.takeWhile Option.isNone).length, list[c]? = some none := by
  induction list with
  | nil => cases h
  | cons x list ih =>
      cases x with
      | some w =>
          cases h
          exact ⟨rfl, fun c hc => absurd hc (Nat.not_lt_zero c)⟩
      | none =>
          obtain ⟨hfirst, hnone⟩ := ih h
          refine ⟨hfirst, fun c hc => ?_⟩
          cases c with
          | zero => rfl
          | succ c => exact hnone c (Nat.lt_of_succ_lt_succ hc)

/-- There is a first value that is given, if there is any. -/
theorem exists_first {values : Vector (Option Variable) 4} {v : Variable} (h : values.toList.findSome? id = some v) :
    ∃ first, values[first]? = some (some v) ∧ ∀ c (hc : c < 4), c < first → values[c] = none := by
  obtain ⟨hfirst, hnone⟩ := getElem?_of_findSome? h
  simp only [Vector.getElem?_toList] at hfirst hnone
  refine ⟨_, hfirst, fun c hc hlt => Option.some.inj ?_⟩
  rw [← Vector.getElem?_eq_getElem hc, hnone c hlt]

/-- So there is a last one, and a store has as many columns as there are up to it. -/
theorem exists_last {values : Vector (Option Variable) 4} {v : Variable} (h : values.toList.findSome? id = some v) :
    ∃ last, 4 - (values.toList.reverse.takeWhile Option.isNone).length = last + 1 ∧
      (∃ v, values[last]? = some (some v)) ∧ ∀ c (hc : c < 4), last < c → values[c] = none := by
  have hreverse : ∀ c < 4, values.toList.reverse[c]? = values[3 - c]? := fun c hc => by
    rw [List.getElem?_reverse (by rwa [Vector.length_toList]), Vector.length_toList, Vector.getElem?_toList]
  -- the last value is the first one of the reverse list
  obtain ⟨w, hw⟩ : ∃ w, values.toList.reverse.findSome? id = some w := by
    obtain ⟨x, hx, rfl⟩ := List.exists_of_findSome?_eq_some h
    exact Option.isSome_iff_exists.1 (List.findSome?_isSome_iff.2 ⟨_, List.mem_reverse.2 hx, rfl⟩)
  obtain ⟨hlast, hnone⟩ := getElem?_of_findSome? hw
  have hlt := (List.getElem?_eq_some_iff.1 hlast).1
  rw [List.length_reverse, Vector.length_toList] at hlt
  generalize (values.toList.reverse.takeWhile Option.isNone).length = behind at hlast hnone hlt ⊢
  refine ⟨3 - behind, by omega, ⟨w, hreverse behind hlt ▸ hlast⟩, fun c hc hafter => Option.some.inj ?_⟩
  rw [← Vector.getElem?_eq_getElem hc, ← hnone (3 - c) (by omega), hreverse _ (by omega),
    show 3 - (3 - c) = c by omega]

theorem performs_of_storeInto {start : Nat}
    (hop : (op, start) ∈ [(Intrinsic.bufferStore, 3), (.rawBufferStore, 3), (.textureStore, 4)])
    (hok : l.storeInto i op h seen = .ok (e, left)) : l.Performs i h seen op e left := by
  have hstart : op.valueArg = start ∧ op.addressArg = 1 := by
    simp only [List.mem_cons, List.not_mem_nil, or_false, Prod.mk.injEq] at hop
    rcases hop with ⟨rfl, rfl⟩ | ⟨rfl, rfl⟩ | ⟨rfl, rfl⟩ <;> exact ⟨rfl, rfl⟩
  obtain ⟨values, hvalues, hok⟩ := ok_of_bind hok
  dsimp only at hok
  cases hfind : values.toList.findSome? id with
  | none =>
      rw [hfind] at hok
      cases hok
  | some v =>
      rw [hfind] at hok
      obtain ⟨address, haddress, hok⟩ := ok_of_bind hok
      cases hok
      obtain ⟨first, hfirst⟩ := exists_first hfind
      obtain ⟨last, hcolumns, hlast⟩ := exists_last hfind
      rw [hstart.1] at hvalues
      have hnames : l.Names i 1 seen address := .of_address (hstart.2 ▸ haddress)
      rw [hcolumns]
      exact .store hop hnames (values_of_storedValues hvalues) hfirst hlast rfl
        (Snapshot.stores_store? (Names.suited (a := ⟨_, _, _, address⟩) hnames) values)

theorem performs_of_updateIn {start : Nat}
    (hop : (op, start) ∈ [(Intrinsic.atomicBinOp, 2), (.atomicCompareExchange, 1)])
    (hok : l.updateIn i op h seen = .ok (e, left)) : l.Performs i h seen op e left := by
  have hstart : op.addressArg = start ∧ (op = .atomicBinOp ∨ op = .atomicCompareExchange) := by
    simp only [List.mem_cons, List.not_mem_nil, or_false, Prod.mk.injEq] at hop
    rcases hop with ⟨rfl, rfl⟩ | ⟨rfl, rfl⟩
    · exact ⟨rfl, .inl rfl⟩
    · exact ⟨rfl, .inr rfl⟩
  obtain ⟨⟨id, zero⟩, hblank, hok⟩ := ok_of_bind hok
  obtain ⟨change, hchange, hok⟩ := ok_of_bind hok
  obtain ⟨address, haddress, hok⟩ := ok_of_bind hok
  have hnames : l.Names i start seen address := .of_address (hstart.1 ▸ haddress)
  have hzero : ∀ c, zero.get c = 0 := fun c => by
    obtain ⟨_, -, heq⟩ := ok_of_map hblank
    cases heq
    exact Variable.get_zeroed ..
  dsimp only at hok hchange
  have hupdates := Snapshot.updates_update? (s := seen)
    (a := { structStride := h.structStride?, elem := zero.elem, columns := 1, address }) (Names.suited hnames)
    (changes_of_atomicChange zero.elem.bits_bounds.1 zero.elem.bits_bounds.2 hstart.2 hchange)
  cases hupdate : seen.update? { structStride := h.structStride?, elem := zero.elem, columns := 1, address } change with
  | none =>
      rw [hupdate] at hok hupdates
      cases hok
      exact .update hop hnames hblank rfl rfl (fun c _ => hzero c) (by rw [hzero]; exact hupdates)
  | some x =>
      rw [hupdate] at hok hupdates
      cases hok
      refine .update hop hnames hblank rfl rfl (fun c hc => ?_) ?_
      · exact (Value.get_set_of_ne _ hc _).trans (hzero c)
      · rw [show (zero.set 0 x.1).get 0 = x.1 from Value.get_set_self _ (by decide) _]
        exact hupdates

/-- An access to a read-write resource that succeeds does what it says. -/
theorem performs_of_access (hacc : op.accesses) (hok : l.access i op h seen = .ok (e, left)) :
    l.Performs i h seen op e left := by
  cases op with
  | bufferLoad => exact performs_of_loadFrom (.head _) hok
  | rawBufferLoad => exact performs_of_loadFrom (.tail _ (.head _)) hok
  | textureLoad => exact performs_of_loadFrom (.tail _ (.tail _ (.head _))) hok
  | bufferStore => exact performs_of_storeInto (.head _) hok
  | rawBufferStore => exact performs_of_storeInto (.tail _ (.head _)) hok
  | textureStore => exact performs_of_storeInto (.tail _ (.tail _ (.head _))) hok
  | atomicBinOp => exact performs_of_updateIn (.head _) hok
  | atomicCompareExchange => exact performs_of_updateIn (.tail _ (.head _)) hok
  | _ => cases hacc

end Lane

end Lockstep
