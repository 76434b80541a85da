import Lockstep.Proofs.Lane.Signature
import Lockstep.Proofs.Typing.Compute

set_option autoImplicit false

/-! # Elements of vectors

An element is put into a vector and taken from it by position, and a shuffle picks elements of two vectors. Positions
that a vector does not have are refused. Of the positions that it has only the first sixteen hold anything: an element
that is put behind them is lost, and what is taken from there is zero (`Lane.elements_placed`,
`Lane.longVectors_loses_seventeenth`). -/

namespace Lockstep

/-- The elements of one vector, and behind them those of another one. -/
def Variable.joined (a b : Variable) (pick : Nat) : UInt64 :=
  if pick < a.compCount then a.get pick else b.get (pick - a.compCount)

theorem Variable.compCount_zeroed_vector (name : String) (elem : Ty) {n : Nat} (hn : n ≤ 255) :
    (zeroed name (.vector elem n)).compCount = n :=
  compCount_row (by omega)

namespace Lane

variable {l : Lane} {s : Setting} {w : World} {i : Instr} {id : Id} {a b x : Variable} {k n : Nat}

namespace AboutTo

variable {v : Variable} {fault : Fault}

/-- The instructions on elements of vectors and on members compute from the lane alone, and flush nothing. -/
theorem gives_of_vector (h : l.AboutTo s.program s.analyses i id)
    (hop : i.op = .extractVal ∨ i.op = .extractElement ∨ i.op = .insertElement ∨ i.op = .shuffleVector)
    (hvector : l.advanced.vector i = .ok (.value id v)) : l.Gives s w id (· = v) := by
  have hcompute : (Step.compute s i).on { lane := l.advanced, world := w } =
      (.ok (.value id v), { lane := l.advanced, world := w }) := by
    rw [Step.on_compute_vector hop, hvector]
  obtain ⟨hok, hworld, hvalue⟩ := h.step hcompute
  have hflush : ¬ i.isFlushing := by
    rw [Instr.isFlushing]
    rcases hop with hop | hop | hop | hop <;> rw [hop] <;> exact Bool.false_ne_true
  rw [Instr.assigned, if_neg hflush] at hvalue
  exact ⟨hok, hworld, v, hvalue, rfl⟩

theorem fails_of_vector (h : l.AboutTo s.program s.analyses i id)
    (hop : i.op = .extractVal ∨ i.op = .extractElement ∨ i.op = .insertElement ∨ i.op = .shuffleVector)
    (hvector : l.advanced.vector i = .error fault) : (l.step s w).result = .error fault := by
  refine h.step_of_error (m := { lane := l.advanced, world := w }) ?_ ?_
  · rw [Instr.isTerminator]
    rcases hop with hop | hop | hop | hop <;> rw [hop] <;> exact Bool.false_ne_true
  · rw [Step.on_compute_vector hop, hvector]

end AboutTo

/-- An operand whose low 32 bits are a number. -/
def Counts (l : Lane) (i : Instr) (index k : Nat) : Prop :=
  ∃ x, l.arg i index = .ok x ∧ (x.get 0).toNat % 2 ^ 32 = k

theorem Counts.argNat {index : Nat} (h : l.Counts i index k) : l.argNat i index = .ok k := by
  obtain ⟨x, hx, rfl⟩ := h
  unfold Lane.argNat argWord32
  rw [hx]
  rfl

/-- The lane is about to execute an instruction on the elements of a vector. -/
structure OnVector (l : Lane) (s : Setting) (i : Instr) (id : Id) (op : Opcode) (a : Variable) : Prop where
  about : l.AboutTo s.program s.analyses i id
  op : i.op = op
  vector : l.arg i 0 = .ok a

namespace OnVector

/-! ## One element -/

theorem vector_extract (h : l.OnVector s i id .extractElement a) (hk : l.Counts i 1 k) :
    l.advanced.vector i =
      if k ≥ a.compCount then .error (.program (.extractElementIndex k a.compCount))
      else .ok (.value id ((Variable.zeroed (i.resultName id) i.ty).set 0 (a.get k))) := by
  unfold Lane.vector
  rw [h.about.blank, show l.advanced.arg i 0 = .ok a from h.vector]
  dsimp only [bind, Except.bind]
  rw [h.op]
  dsimp only
  rw [show l.advanced.argNat i 1 = .ok k from hk.argNat]
  dsimp only
  split <;> rfl

/-- An element is taken as it is, and none from a position that the vector does not have. -/
theorem extract (h : l.OnVector s i id .extractElement a) (hk : l.Counts i 1 k) :
    (k < a.compCount → l.Gives s w id fun e => e.get 0 = a.get k) ∧
      (a.compCount ≤ k → (l.step s w).result = .error (.program (.extractElementIndex k a.compCount))) := by
  have hvector := h.vector_extract hk
  refine ⟨fun hlt => ?_, fun hge => h.about.fails_of_vector (.inr (.inl h.op)) (hvector.trans (if_pos hge))⟩
  refine (h.about.gives_of_vector (.inr (.inl h.op)) (hvector.trans (if_neg (by omega)))).mono ?_
  rintro _ rfl
  exact Value.get_set_self _ (by decide) _

theorem vector_insert (h : l.OnVector s i id .insertElement a) (hx : l.arg i 1 = .ok x) (hk : l.Counts i 2 k)
    {elem : Ty} (hn : n ≤ 255) (hty : i.ty = .vector elem n) :
    l.advanced.vector i =
      if k ≥ n then .error (.program (.insertElementIndex k n))
      else .ok (.value id
        ({ Variable.zeroed (i.resultName id) i.ty with value := a.value }.set k (x.get 0))) := by
  have hcount : (Variable.zeroed (i.resultName id) i.ty).compCount = n := by
    rw [hty]
    exact Variable.compCount_zeroed_vector _ _ hn
  unfold Lane.vector
  rw [h.about.blank, show l.advanced.arg i 0 = .ok a from h.vector]
  dsimp only [bind, Except.bind]
  rw [h.op]
  dsimp only
  rw [show l.advanced.arg i 1 = .ok x from hx, show l.advanced.argNat i 2 = .ok k from hk.argNat]
  dsimp only
  rw [hcount]
  split <;> rfl

/-- What is put into a vector stands at its position if that is one of the first sixteen, and the other elements are
    kept. Nothing is put at a position that the vector does not have. -/
theorem insert (h : l.OnVector s i id .insertElement a) (hx : l.arg i 1 = .ok x) (hk : l.Counts i 2 k)
    {elem : Ty} (hn : n ≤ 255) (hty : i.ty = .vector elem n) :
    (k < n → l.Gives s w id fun r =>
      r.compCount = n ∧ ∀ j, r.get j = if j = k then if k < 16 then x.get 0 else 0 else a.get j) ∧
      (n ≤ k → (l.step s w).result = .error (.program (.insertElementIndex k n))) := by
  have hvector := h.vector_insert hx hk hn hty
  refine ⟨fun hlt => ?_, fun hge => h.about.fails_of_vector (.inr (.inr (.inl h.op))) (hvector.trans (if_pos hge))⟩
  refine (h.about.gives_of_vector (.inr (.inr (.inl h.op))) (hvector.trans (if_neg (by omega)))).mono ?_
  rintro _ rfl
  refine ⟨?_, fun j => ?_⟩
  · rw [hty]
    exact Variable.compCount_zeroed_vector (i.resultName id) elem hn
  · split
    · next hj =>
        subst hj
        exact Variable.get_set ..
    · next hj => exact Value.get_set_of_ne _ hj _

/-! ## Shuffles -/

theorem shufflePick_of_lt {pick : Nat} (h : pick < a.compCount + b.compCount) :
    shufflePick a b pick = .ok (a.joined b pick) := by
  unfold shufflePick Variable.joined
  by_cases hpick : pick < a.compCount
  · rw [if_pos hpick, if_pos hpick]
  · rw [if_neg hpick, if_neg hpick, if_pos (by omega)]

theorem shufflePick_of_ge {pick : Nat} (h : a.compCount + b.compCount ≤ pick) :
    shufflePick a b pick = .error (.program (.shuffleLane pick)) := by
  unfold shufflePick
  rw [if_neg (by omega), if_neg (by omega)]

theorem vector_shuffle (h : l.OnVector s i id .shuffleVector a) (hb : l.arg i 1 = .ok b) (hx : l.arg i 2 = .ok x) :
    l.advanced.vector i =
      ((List.range (Variable.zeroed (i.resultName id) i.ty).compCount).mapM
        fun c => shufflePick a b (x.get c).toNat).map fun words =>
          .value id ((Variable.zeroed (i.resultName id) i.ty).fill fun c => words[c]?.getD 0) := by
  unfold Lane.vector
  rw [h.about.blank, show l.advanced.arg i 0 = .ok a from h.vector]
  dsimp only [bind, Except.bind]
  rw [h.op]
  dsimp only
  rw [show l.advanced.arg i 1 = .ok b from hb, show l.advanced.arg i 2 = .ok x from hx]
  rfl

/-- Each of the first sixteen elements of a shuffle is the one that is picked for it. The shuffle fails if an element is
    picked that the vectors do not have. -/
theorem shuffle (h : l.OnVector s i id .shuffleVector a) (hb : l.arg i 1 = .ok b) (hx : l.arg i 2 = .ok x)
    {elem : Ty} (hn : n ≤ 255) (hty : i.ty = .vector elem n) :
    ((∀ c < n, (x.get c).toNat < a.compCount + b.compCount) → l.Gives s w id fun r =>
      ∀ c < n, r.get c = if c < 16 then a.joined b (x.get c).toNat else 0) ∧
      ((∃ c < n, a.compCount + b.compCount ≤ (x.get c).toNat) →
        ∃ c < n, (l.step s w).result = .error (.program (.shuffleLane (x.get c).toNat))) := by
  have hcount : (Variable.zeroed (i.resultName id) i.ty).compCount = n := by
    rw [hty]
    exact Variable.compCount_zeroed_vector _ _ hn
  have hvector := h.vector_shuffle hb hx
  rw [hcount] at hvector
  refine ⟨fun hlt => ?_, fun hge => ?_⟩
  · have hwords := mapM_eq_ok (List.range n) fun c hc => shufflePick_of_lt (hlt c (List.mem_range.1 hc))
    rw [hwords] at hvector
    refine (h.about.gives_of_vector (.inr (.inr (.inr h.op))) hvector).mono ?_
    rintro _ rfl c hc
    rw [Variable.get_fill _ _ (by rw [hcount]; exact hc), List.getElem?_map, List.getElem?_range hc]
    rfl
  · obtain ⟨c, hc, hge⟩ := hge
    obtain ⟨c, hc, fault, hfault, herror⟩ :=
      mapM_eq_error (List.range n) (g := fun c => shufflePick a b (x.get c).toNat)
        ⟨c, List.mem_range.2 hc, _, shufflePick_of_ge hge⟩
    rw [herror] at hvector
    refine ⟨c, List.mem_range.1 hc, ?_⟩
    rw [h.about.fails_of_vector (.inr (.inr (.inr h.op))) hvector]
    by_cases hpick : (x.get c).toNat < a.compCount + b.compCount
    · rw [shufflePick_of_lt hpick] at hfault
      cases hfault
    · rw [shufflePick_of_ge (by omega)] at hfault
      rw [Except.error.inj hfault]

end OnVector

/-- On vectors of `n` elements, what can be counted in eight bits. To take an element gives the element, and fails at a
    position that the vector does not have. To put one in fails at such a position too, and else gives a vector from
    which each element can be taken: the new one at its position, if this is one of the first sixteen, and the old
    ones elsewhere. A shuffle gives the elements that are picked, the first sixteen of them, unless one is picked that
    the two vectors do not have, when it fails. -/
theorem elements_placed (elem : Ty) (hn : n ≤ 255) (ha : a.compCount = n) (hb : b.compCount = n) :
    (∀ {l : Lane} {s : Setting} {i : Instr} {id : Id} {k : Nat} (w : World),
      l.OnVector s i id .extractElement a → l.Counts i 1 k →
        (k < n → l.Gives s w id fun e => e.get 0 = a.get k) ∧
        (n ≤ k → (l.step s w).result = .error (.program (.extractElementIndex k n)))) ∧
    (∀ {l : Lane} {s : Setting} {i : Instr} {id : Id} {x : Variable} {k : Nat} (w : World),
      l.OnVector s i id .insertElement a → l.arg i 1 = .ok x → l.Counts i 2 k → i.ty = .vector elem n →
        (k < n → l.Gives s w id fun r =>
          ∀ {l' : Lane} {s' : Setting} {i' : Instr} {id' : Id} {j : Nat} (w' : World),
            l'.OnVector s' i' id' .extractElement r → l'.Counts i' 1 j → j < n →
              l'.Gives s' w' id' fun e => e.get 0 = if j = k then if k < 16 then x.get 0 else 0 else a.get j) ∧
        (n ≤ k → (l.step s w).result = .error (.program (.insertElementIndex k n)))) ∧
    ∀ {l : Lane} {s : Setting} {i : Instr} {id : Id} {picks : Variable} {m : Nat} (w : World),
      l.OnVector s i id .shuffleVector a → l.arg i 1 = .ok b → l.arg i 2 = .ok picks → m ≤ 255 → i.ty = .vector elem m →
        ((∀ c < m, (picks.get c).toNat < n + n) → l.Gives s w id fun r =>
          ∀ c < m, r.get c = if c < 16 then a.joined b (picks.get c).toNat else 0) ∧
        ((∃ c < m, n + n ≤ (picks.get c).toNat) →
          ∃ c < m, (l.step s w).result = .error (.program (.shuffleLane (picks.get c).toNat))) := by
  refine ⟨fun w h hk => ?_, fun {l s i id x k} w h hx hk hty => ?_, fun w h hb' hpicks hm hty => ?_⟩
  · rw [← ha]
    exact h.extract hk
  · obtain ⟨hput, hrefused⟩ := h.insert (w := w) hx hk hn hty
    refine ⟨fun hlt => (hput hlt).mono fun r hr {l' s' i' id' j} w' h' hj hjn => ?_, hrefused⟩
    -- the new vector has as many elements as the old one
    refine ((h'.extract hj).1 (by rw [hr.1]; exact hjn)).mono fun e he => ?_
    rw [he]
    exact hr.2 j
  · have hshuffle := h.shuffle (w := w) hb' hpicks hm hty
    rw [ha, hb] at hshuffle
    exact hshuffle

/-- Puts a seven at the last of sixteen positions. -/
def putLast : Instr :=
  { op := .insertElement, ty := .vector (.int 32) 16, result := some ⟨0⟩,
    args := [.const (.zero (.vector (.int 32) 16)), .const (.int 32 7), .const (.int 32 15)] }

/-- Takes what stands there. -/
def takeLast : Instr :=
  { op := .extractElement, ty := .int 32, result := some ⟨1⟩, args := [.ref ⟨0⟩, .const (.int 32 15)] }

/-- Puts a seven at the last of sixteen and at the last of seventeen positions, and takes what stands there. -/
def longVectors : Program :=
  { stage := .compute
    functions := #[{ name := "longVectors", blocks := #[{}], instrs := #[putLast, takeLast,
      { op := .insertElement, ty := .vector (.int 32) 17, result := some ⟨2⟩,
        args := [.const (.zero (.vector (.int 32) 17)), .const (.int 32 7), .const (.int 32 16)] },
      { op := .extractElement, ty := .int 32, result := some ⟨3⟩, args := [.ref ⟨2⟩, .const (.int 32 16)] },
      { op := .ret }] }]
    idCount := 4 }

set_option synthInstance.maxSize 512 in
/-- Of sixteen positions the last one holds what was put there. -/
theorem longVectors_keeps_sixteenth :
    ∃ (s₀ : Session) (l : Lane) (x : Variable), Session.new longVectors {} {} [{}] 0 {} = .ok s₀ ∧
      let s := s₀.start.session
      s.lanes[0]? = some l ∧
      let placed := l.step (s.setting .unbound 0) s.world
      (placed.lane.step (s.setting .unbound 0) placed.world).lane.value? ⟨1⟩ = some x ∧ x.get 0 = 7 := by
  have h : ∃ s₀, Session.new longVectors {} {} [{}] 0 {} = .ok s₀ ∧ ∃ states, s₀.start.result = .ok states ∧
      ∃ l, s₀.start.session.lanes[0]? = some l ∧
      ((¬ l.isFinished ∧ l.hasPlace ⟨0⟩) ∧ (s₀.start.session.analyses.of? l.function).isSome ∧
        l.function = 0 ∧ l.instr = 0) ∧
      ∃ l', some (l.step (s₀.start.session.setting .unbound 0) s₀.start.session.world).lane = some l' ∧
      ((¬ l'.isFinished ∧ l'.hasPlace ⟨1⟩) ∧ (s₀.start.session.analyses.of? l'.function).isSome ∧
        l'.function = 0 ∧ l'.instr = 1) := by
    decide +kernel
  obtain ⟨s₀, hnew, states, hstart, l, hl, ⟨hready, hanalysis, hfunction, hinstr⟩, l', hl', hready', hanalysis',
    hfunction', hinstr'⟩ := h
  cases hl'
  have hprogram : s₀.start.session.program = longVectors :=
    (Session.Reached.started hstart).program_eq.trans (Session.fresh_of_new hnew).program
  have hputs : l.OnVector (s₀.start.session.setting .unbound 0) putLast ⟨0⟩ .insertElement
      (.zeroed "" (.vector (.int 32) 16)) :=
    ⟨.of_program hprogram hready hanalysis hfunction hinstr rfl rfl, rfl, rfl⟩
  obtain ⟨-, hput, -⟩ := elements_placed (.int 32) (n := 16) (a := .zeroed "" (.vector (.int 32) 16))
    (b := .zeroed "" (.vector (.int 32) 16)) (by decide) rfl rfl
  obtain ⟨-, -, r, hr, htaken⟩ :=
    (hput s₀.start.session.world hputs rfl (k := 15) ⟨_, rfl, by decide⟩ rfl).1 (by decide)
  have htakes : (l.step (s₀.start.session.setting .unbound 0) s₀.start.session.world).lane.OnVector
      (s₀.start.session.setting .unbound 0) takeLast ⟨1⟩ .extractElement r := by
    refine ⟨.of_program hprogram hready' hanalysis' hfunction' hinstr' rfl rfl, rfl, ?_⟩
    show (l.step _ _).lane.operand (.ref ⟨0⟩) false = .ok r
    unfold operand
    rw [hr]
    rfl
  obtain ⟨-, -, x, hx, hget⟩ := htaken (l.step (s₀.start.session.setting .unbound 0) s₀.start.session.world).world
    htakes (j := 15) ⟨_, rfl, by decide⟩ (by decide)
  refine ⟨s₀, l, x, hnew, hl, by rw [hx, Function.update_self], ?_⟩
  rw [hget]
  decide

set_option synthInstance.maxSize 512 in
/-- Of seventeen positions the last one holds nothing: what is put there, which succeeds, is not what can be taken. -/
theorem longVectors_loses_seventeenth :
    ∃ s₀, Session.new longVectors {} {} [{}] 0 {} = .ok s₀ ∧
      (∃ s, s₀.start.session.advance .unbound 2 = .ok s ∧ ∃ l, s.lanes[0]? = some l ∧
        ∃ next, l.nextInstr s.program s.analyses = .ok next ∧
          (next.2.op = .insertElement ∧ next.2.ty.elementCount = 17 ∧ next.2.result = some ⟨2⟩) ∧
          (∃ x, l.arg next.2 1 = .ok x ∧ x.get 0 = 7) ∧ (∃ k, l.argNat next.2 2 = .ok k ∧ k = 16) ∧
          ∃ state, (l.step (s.setting .unbound 0) s.world).result = .ok state) ∧
      ∃ s, s₀.start.session.advance .unbound 3 = .ok s ∧ ∃ l, s.lanes[0]? = some l ∧
        ∃ next, l.nextInstr s.program s.analyses = .ok next ∧ next.2.op = .extractElement ∧
          (∃ source, next.2.argId 0 = .ok source ∧ source = ⟨2⟩) ∧ (∃ k, l.argNat next.2 1 = .ok k ∧ k = 16) ∧
          ∃ x, (l.step (s.setting .unbound 0) s.world).lane.value? ⟨3⟩ = some x ∧ x.get 0 = 0 := by
  decide +kernel

end Lane

end Lockstep
