import Lockstep.Proofs.BitScan
import Lockstep.Proofs.Lane.Assign
import Lockstep.Proofs.Session.Rounds
import Lockstep.Proofs.Typing.Value

set_option autoImplicit false

/-! # Instructions on bits

An instruction that searches, reverses or counts bits always succeeds on an integer, and assigns the answer for
the bits that it sees of the operand; this is the answer for the operand if these bits decide it
(`Lane.bits_answered`). A search of 16 or 64 bits is not always decided (`Lane.bitScans_misanswers_short`). -/

namespace Lockstep

theorem ElemType.bits_of_isInteger {t : ElemType} (h : t.isInteger) : 0 < t.bits ∧ t.bits ≤ 64 := by
  cases t <;> first | (cases h; done) | decide

theorem Intrinsic.not_isFlushing_of_onBits {op : Intrinsic} (h : op.onBits?.isSome) : op.isFlushing = false := by
  cases op <;> first | rfl | cases h

/-- An intrinsic on bits computes from its operand alone. -/
theorem Step.on_intrinsic_of_onBits {s : Setting} {i : Instr} {m : Machine} {op : Intrinsic}
    {fn : Nat → UInt64 → UInt64} (h : op.onBits? = some fn) :
    (intrinsic s i op).on m = (m.lane.bitMath i op fn, m) := by
  unfold intrinsic
  rw [on_bind]
  cases op <;> cases h <;> rfl

namespace Lane

/-- The lane is about to compute an intrinsic on the bits of an integer. -/
structure Scans (l : Lane) (s : Setting) (i : Instr) (id : Id) (op : Intrinsic) (a : Variable) : Prop where
  about : l.AboutTo s.program s.analyses i id
  intrinsic : i.intrinsic? = some op
  onBits : op.onBits?.isSome
  arg : l.arg i 0 = .ok a
  isInteger : a.elem.isInteger

variable {l : Lane} {s : Setting} {w : World} {i : Instr} {id : Id} {op : Intrinsic} {a : Variable}

/-- The integer that is looked at. -/
def scanned (a : Variable) : BitVec a.elem.bits := lowBits a.elem.bits (a.get 0)

/-- The step assigns what the intrinsic makes of the integer, cut to the width of the result. -/
theorem Scans.step (h : l.Scans s i id op a) {fn : Nat → UInt64 → UInt64} (hfn : op.onBits? = some fn) :
    (∃ state, (l.step s w).result = .ok state) ∧ (l.step s w).world = w ∧
      ∃ r : Variable, (l.step s w).lane.value? = Function.update l.value? id (some r) ∧ r.elem = i.ty.elem ∧
        r.get 0 = fn a.elem.bits (wordOf (scanned a)) &&& mask i.ty.elem.bits := by
  let result := (Variable.zeroed (i.resultName id) i.ty).setIntComp 0 (fn a.elem.bits (a.get 0 &&& mask a.elem.bits))
  have hmath : l.advanced.bitMath i op fn = .ok (.value id result) := by
    unfold bitMath
    rw [h.about.blank, show l.advanced.arg i 0 = .ok a from h.arg]
    show (if !a.elem.isInteger then _ else _ : Except Fault Effect) = _
    rw [if_neg (by simp [h.isInteger])]
    rfl
  have hon : (Step.intrinsic s i op).on { lane := l.advanced, world := w } =
      (.ok (.assign id result true), { lane := l.advanced, world := w }) := by
    rw [Step.on_intrinsic_of_onBits hfn, hmath]
    rfl
  obtain ⟨hok, hworld, hvalue⟩ := step_of_intrinsic h.about.running h.about.next h.intrinsic
    (Intrinsic.not_isFlushing_of_onBits h.onBits) hon h.about.place
  refine ⟨hok, hworld, result, hvalue, Variable.elem_zeroed _ _, ?_⟩
  show (Value.set _ _ _).get 0 = _
  rw [Value.get_set_self _ (by decide), Variable.elem_zeroed, scanned, wordOf_lowBits]

/-- An intrinsic on the bits of an integer always gives a result. That of a search is its answer for the 32 bits that
    it sees, cut to the width of the result. Any result is the answer for the integer, at its own width, if the bits
    that are seen decide it: those of 32-bit integers always do, and so does whatever is seen by a reversal or a count.
    To reverse what a reversal gave gives the integer again. -/
theorem bits_answered (h : l.Scans s i id op a) :
    (∃ state, (l.step s w).result = .ok state) ∧ (l.step s w).world = w ∧
      ∃ r : Variable, (l.step s w).lane.value? = Function.update l.value? id (some r) ∧ r.elem = i.ty.elem ∧
        (op.searches → ∃ seen, op.IsAnswer (op.seen (scanned a)) 32 seen ∧
          r.get 0 = seen &&& mask i.ty.elem.bits) ∧
        (op.Reaches (scanned a) i.ty.elem.bits → op.IsAnswer (scanned a) i.ty.elem.bits (r.get 0)) ∧
        (op = .bfrev → r.elem = a.elem → ∀ {l' : Lane} {s' : Setting} {i' : Instr} {id' : Id} (w' : World),
          l'.Scans s' i' id' .bfrev r → i'.ty.elem = r.elem →
            ∃ r', (l'.step s' w').lane.value? id' = some r' ∧ r'.get 0 = wordOf (scanned a)) := by
  obtain ⟨fn, hfn⟩ := Option.isSome_iff_exists.1 h.onBits
  obtain ⟨h0, hn⟩ := ElemType.bits_of_isInteger h.isInteger
  obtain ⟨hok, hworld, r, hvalue, helem, hget⟩ := h.step (w := w) hfn
  refine ⟨hok, hworld, r, hvalue, helem, fun hsearch => ?_, fun hreaches => ?_, ?_⟩
  · exact ⟨_, Intrinsic.isAnswer_seen hfn hsearch h0 hn _, hget⟩
  · rw [hget]
    exact Intrinsic.isAnswer_of_reaches hfn h0 hn hreaches
  · rintro rfl hsame l' s' i' id' w' h' helem'
    obtain ⟨-, -, r', hvalue', -, hget'⟩ := h'.step (w := w') rfl
    refine ⟨r', by rw [hvalue', Function.update_self], ?_⟩
    cases hfn
    rw [hget', helem', scanned, wordOf_lowBits, hget, ← helem, hsame]
    simp only [reverseBits_eq hn, lowBits_wordOf hn, and_mask_wordOf hn, BitVec.setWidth_eq, BitVec.reverse_reverse_eq]

/-- The position of the first bit that differs from the sign. -/
def signBits : Instr :=
  { op := .call, callee := some (.intrinsic .firstbitSHi), ty := .scalar .int 32, result := some ⟨0⟩,
    args := [.const (.int 32 0xfffffff0)] }

/-- The position of the highest bit of a number of 16 bits. -/
def highBit : Instr :=
  { op := .call, callee := some (.intrinsic .firstbitHi), ty := .scalar .int 32, result := some ⟨1⟩,
    args := [.const (.int 16 1)] }

/-- Computes both. -/
def bitScans : Program :=
  { stage := .compute
    functions := #[{ name := "bitScans", blocks := #[{}], instrs := #[signBits, highBit, { op := .ret }] }]
    idCount := 2 }

/-- The complement of minus sixteen has its highest bit at the twenty-ninth position from above. -/
theorem bitScans_answers_word :
    ∃ (s₀ s : Session) (l : Lane) (a r : Variable), Session.new bitScans {} {} [{}] 0 {} = .ok s₀ ∧
      s₀.start.session = s ∧ s.lanes[0]? = some l ∧ l.Scans (s.setting .unbound 0) signBits ⟨0⟩ .firstbitSHi a ∧
      (l.step (s.setting .unbound 0) s.world).lane.value? ⟨0⟩ = some r ∧ r.get 0 = 28 := by
  have h : ∃ s₀, Session.new bitScans {} {} [{}] 0 {} = .ok s₀ ∧ ∃ states, s₀.start.result = .ok states ∧
      ∃ l, s₀.start.session.lanes[0]? = some l ∧
      ((¬ l.isFinished ∧ l.hasPlace ⟨0⟩) ∧ (s₀.start.session.analyses.of? l.function).isSome ∧
        l.function = 0 ∧ l.instr = 0 ∧ ∃ a, l.arg signBits 0 = .ok a ∧ (a.elem = .sInt ∧ a.get 0 = 0xfffffff0)) := by
    decide +kernel
  obtain ⟨s₀, hnew, states, hstart, l, hl, hready, hanalysis, hfunction, hinstr, a, ha, helem, hget⟩ := h
  have hprogram : s₀.start.session.program = bitScans :=
    (Session.Reached.started hstart).program_eq.trans (Session.fresh_of_new hnew).program
  have hat : l.AboutTo s₀.start.session.program s₀.start.session.analyses signBits ⟨0⟩ :=
    .of_program hprogram hready hanalysis hfunction hinstr rfl rfl
  have hscans : l.Scans (s₀.start.session.setting .unbound 0) signBits ⟨0⟩ .firstbitSHi a :=
    ⟨hat, rfl, rfl, ha, by rw [helem]; rfl⟩
  obtain ⟨-, -, r, hr, -, -, hanswer, -⟩ := bits_answered (w := s₀.start.session.world) hscans
  refine ⟨s₀, _, l, a, r, hnew, rfl, hl, hscans, by rw [hr, Function.update_self], ?_⟩
  have hbits : a.elem.bits = 32 := by rw [helem]; rfl
  have hx : (scanned a).toNat = 0xfffffff0 := by rw [scanned, toNat_lowBits, hget, hbits]; rfl
  have hanswer := hanswer ⟨hbits, by decide⟩
  generalize hn : a.elem.bits = n, scanned a = x at hx hanswer
  rw [hbits] at hn
  subst hn
  obtain rfl : x = 0xfffffff0#32 := BitVec.eq_of_toNat_eq hx
  exact hanswer.eq_of_isLeast (isLeast_of_forall_lt (p := 28) (by decide) (by decide))

set_option synthInstance.maxSize 512 in
/-- The highest bit of a one of 16 bits is its last, at position fifteen, but the answer is thirty-one. -/
theorem bitScans_misanswers_short :
    ∃ (s₀ s : Session) (l : Lane) (a r : Variable) (next : FunctionAnalysis × Instr),
      Session.new bitScans {} {} [{}] 0 {} = .ok s₀ ∧
      s₀.start.session.advance .unbound 1 = .ok s ∧ s.lanes[0]? = some l ∧
      l.nextInstr s.program s.analyses = .ok next ∧ next.2.intrinsic? = some .firstbitHi ∧
      l.arg next.2 0 = .ok a ∧ a.elem = .sShort ∧
      (l.step (s.setting .unbound 0) s.world).lane.value? ⟨1⟩ = some r ∧ r.get 0 = 31 ∧
      ¬ Intrinsic.firstbitHi.IsAnswer (scanned a) r.elem.bits (r.get 0) := by
  have h : ∃ s₀, Session.new bitScans {} {} [{}] 0 {} = .ok s₀ ∧ ∃ s, s₀.start.session.advance .unbound 1 = .ok s ∧
      ∃ l, s.lanes[0]? = some l ∧ ∃ next, l.nextInstr s.program s.analyses = .ok next ∧
      next.2.intrinsic? = some .firstbitHi ∧
      ∃ a, l.arg next.2 0 = .ok a ∧ (a.elem = .sShort ∧ (scanned a).toNat = 1) ∧
      ∃ r, (l.step (s.setting .unbound 0) s.world).lane.value? ⟨1⟩ = some r ∧ (r.get 0 = 31 ∧ r.elem = .sInt) := by
    decide +kernel
  obtain ⟨s₀, hnew, s, hs, l, hl, next, hnext, hop, a, ha, ⟨helem, hx⟩, r, hr, hget, hresult⟩ := h
  refine ⟨s₀, s, l, a, r, next, hnew, hs, hl, hnext, hop, ha, helem, hr, hget, fun hanswer => ?_⟩
  have hbits : a.elem.bits = 16 := by rw [helem]; rfl
  generalize hn : a.elem.bits = n, scanned a = x at hx hanswer
  rw [hbits] at hn
  subst hn
  obtain rfl : x = 1#16 := BitVec.eq_of_toNat_eq hx
  have hfound := hanswer.eq_of_isLeast (isLeast_of_forall_lt (p := 15) (by decide) (by decide))
  rw [hget, hresult] at hfound
  exact absurd hfound (by decide)

end Lane

end Lockstep
