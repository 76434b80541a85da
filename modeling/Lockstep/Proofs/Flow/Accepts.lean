import Lockstep.Proofs.Flow.Definitions
import Lockstep.Proofs.Flow.Unique

set_option autoImplicit false

/-! # Which functions are analysed

The analysis of a function succeeds only if its reads are defined: what an instruction reads is a global
or the result of one instruction. And it succeeds if each read is preceded by its definition in the
flow graph, wherever the two stand in the instruction sequence: a read that the walk comes to before
the definition is kept up to a point that control comes to from the definition
(`Function.Precedes.isAfter_reach`), so the walk does not take it for a read of something undefined
(`FunctionAnalysis.accepts_definedReads`). -/

namespace Lockstep

/-! ## Functions that are well defined -/

/-- The number of runs of instructions that end at a terminator or at the end of the function. -/
def Function.runs (f : Function) : Nat :=
  if f.instrs.isEmpty then 0 else f.instrs.toList.dropLast.countP Instr.isTerminator + 1

/-- The operands of a phi node come in pairs, and an identifier is paired with a block. -/
def PhiPairs (blocks : Nat) : List Operand → Prop
  | [] => True
  | [_] => False
  | o :: source :: rest => (o.id?.isSome → ∃ b < blocks, source = .block b) ∧ PhiPairs blocks rest

/-- An identifier is the result of an instruction that is no marker. -/
def Function.DefinedAt (f : Function) (n : Nat) (id : Id) : Prop :=
  ∃ x, f.instrs[n]? = some x ∧ x.defined? = some id

/-- An instruction of the function reads an identifier where it stands. -/
def Function.Reads (f : Function) (id : Id) : Prop :=
  ∃ (m : Nat) (i : Instr), f.instrs[m]? = some i ∧ id ∈ i.reads

/-- A function in static single assignment form. -/
structure Function.WellDefined (p : Program) (f : Function) : Prop where
  runs : f.runs = f.blocks.size
  reachable : ∀ b < f.blocks.size, Relation.ReflTransGen f.Linked 0 b
  phis : ∀ {n : Nat} {i : Instr}, f.instrs[n]? = some i → i.op = .phi → PhiPairs f.blocks.size i.args
  defined : ∀ {n id}, f.DefinedAt n id → id.index < p.idCount ∧ ¬ (p.global? id).isSome
  distinct : ∀ {n m id}, f.DefinedAt n id → f.DefinedAt m id → n = m
  reads : ∀ {m : Nat} {i : Instr} {id : Id}, f.instrs[m]? = some i → id ∈ i.reads →
    ((p.global? id).isSome ∧ id.index < p.idCount) ∨ ∃ n, f.DefinedAt n id ∧ f.Precedes n m

/-! ## Blocks -/

theorem length_startsAfter (i : Nat) (instrs : List Instr) :
    (startsAfter i instrs).length = instrs.dropLast.countP Instr.isTerminator := by
  fun_induction startsAfter i instrs with
  | case1 => rfl
  | case2 => rfl
  | case3 i a b rest ih =>
      rw [List.length_append, ih, List.dropLast_cons_cons, List.countP_cons]
      split <;> simp [Nat.add_comm]

namespace Function

variable {p : Program} {f : Function} {n m : Nat}

/-- The blocks of a function are located when there are as many as runs. -/
theorem blockStarts_of_runs (h : f.runs = f.blocks.size) : ∃ starts, f.blockStarts = .ok starts := by
  unfold runs at h
  unfold blockStarts
  split at h
  · next hempty => exact ⟨[], by simp [hempty, ← h]⟩
  · next hempty =>
      refine ⟨0 :: startsAfter 0 f.instrs.toList, ?_⟩
      simp [hempty, length_startsAfter, ← h]

theorem blockOf_lt_runs (h : n < f.instrs.size) : f.blockOf n < f.runs := by
  have hempty : ¬ f.instrs.isEmpty := by
    simp only [Array.isEmpty_iff_size_eq_zero]
    omega
  unfold blockOf runs
  rw [if_neg hempty, List.dropLast_eq_take, Nat.lt_succ_iff]
  refine (List.take_sublist_take_left ?_).countP_le
  simp only [Array.length_toList]
  omega

/-- A read that stands before its definition, but is preceded by it in the flow graph, is kept up to a
    point that control comes to from the definition. -/
theorem Precedes.isAfter_reach {cf : ControlFlow} {starts : List Nat} {count : Nat} {i : Instr}
    (hcf : cf = .ofLinks f.blocks.size f.links) (h : f.Precedes n m) (hmn : m < n)
    (hm : Relation.ReflTransGen f.Linked 0 (f.blockOf m)) :
    (LiveRanges.reach cf starts count (f.blockOf m) m i).isAfter (f.pointOf n) cf := by
  have hne : f.blockOf n ≠ f.blockOf m := fun heq => Nat.lt_asymm hmn (h.lt heq)
  obtain ⟨path, hpath⟩ := exists_walk hm
  have hreach : Relation.TransGen f.Linked (f.blockOf n) (f.blockOf m) :=
    (Relation.reflTransGen_iff_eq_or_transGen.1 (hpath.between (h.dominates path hpath)).2).resolve_left
      hne.symm
  -- the point is in the block of the read, or in a uniform block behind it
  have hpoint : ∀ b k, (b = f.blockOf m ∨ (Uniform f.Linked b ∧ Relation.TransGen f.Linked (f.blockOf m) b)) →
      Point.isAfter ⟨b, k⟩ (f.pointOf n) cf := by
    intro b k hb
    have hnb : Relation.TransGen f.Linked (f.blockOf n) b := by
      rcases hb with rfl | ⟨-, hmb⟩
      · exact hreach
      · exact hreach.trans hmb
    have hbn : b ≠ f.blockOf n := by
      rintro rfl
      rcases hb with heq | ⟨huniform, -⟩
      · exact hne heq
      · exact huniform.2 hnb
    unfold Point.isAfter pointOf
    rw [if_neg hbn, hcf]
    exact (ControlFlow.reach_ofLinks _ _ _ _).2 hnb
  unfold LiveRanges.reach
  split
  · refine hpoint _ _ ?_
    rw [hcf]
    exact ControlFlow.nextUniform_cases _ _ _
  · exact hpoint _ _ (.inl rfl)

end Function

/-! ## The walk succeeds -/

namespace LiveRanges

variable {p : Program} {f : Function} {cf : ControlFlow} {s s' : LiveRanges} {id : Id}
  {here upTo : Point} {starts : List Nat} {count i : Nat} {instr : Instr}

/-- Last reads that are new come from somewhere. -/
def Sets (source : Id → Point → Prop) (s s' : LiveRanges) : Prop :=
  ∀ id last, s'.lastRead? id = some last → s.lastRead? id = some last ∨ source id last

namespace Sets

variable {source source' : Id → Point → Prop} {s'' : LiveRanges}

theorem refl (source : Id → Point → Prop) (s : LiveRanges) : Sets source s s := fun _ _ => .inl

theorem trans (h : Sets source s s') (h' : Sets source s' s'') : Sets source s s'' := by
  intro id last hlast
  exact (h' id last hlast).elim (h id last) .inr

theorem mono (h : Sets source s s') (hsource : ∀ id last, source id last → source' id last) :
    Sets source' s s' :=
  fun id last hlast => (h id last hlast).imp_right (hsource id last)

end Sets

theorem setLastRead_ok (hid : id.index < s.lastReads.size) (upTo : Point) :
    ∃ s', s.setLastRead id upTo = .ok s' ∧ Sets (fun id' last => id' = id ∧ last = upTo) s s' := by
  have hok : s.setLastRead id upTo =
      .ok { s with lastReads := s.lastReads.setIfInBounds id.index (some upTo) } := if_pos hid
  refine ⟨_, hok, fun id' last hlast => ?_⟩
  rw [lastRead?_of_setLastRead hok] at hlast
  split at hlast
  · next heq => exact .inr ⟨heq, (Option.some.inj hlast).symm⟩
  · exact .inl hlast

theorem sets_reference (source : Id → Point → Prop) (s : LiveRanges) (id : Id) :
    Sets source s (s.reference id) := by
  intro id' last hlast
  rw [lastRead?_reference] at hlast
  exact .inl hlast

/-- A definition is noted when it is the first, and all that is read before comes after it. -/
theorem define_ok (hnew : id ∉ s.referenced) (hid : id.index < s.lastReads.size)
    (hafter : ∀ last, s.lastRead? id = some last → last.isAfter here cf) :
    ∃ s', define cf s id here = .ok s' ∧ Sets (fun id' _ => id' = id) s s' := by
  have hcontains : ¬ s.referenced.contains id := fun h => hnew (List.contains_iff_mem.1 h)
  unfold define
  rw [if_neg hcontains]
  dsimp only
  have hsize : id.index < (s.reference id).lastReads.size := (knows_reference s id).size ▸ hid
  cases hlast : (s.reference id).lastRead? id with
  | none =>
      obtain ⟨s', hs', hsets⟩ := setLastRead_ok hsize here
      exact ⟨s', hs', (sets_reference _ s id).trans (hsets.mono fun _ _ h => h.1)⟩
  | some last =>
      rw [lastRead?_reference] at hlast
      simp only [hafter last hlast, if_true]
      exact ⟨_, rfl, sets_reference _ s id⟩

theorem read_ok {o : Operand} (hid : ∀ id, o = .ref id → id.index < s.lastReads.size) :
    ∃ s', read p cf upTo s o = .ok s' ∧ Sets (fun id last => o = .ref id ∧ last = upTo) s s' := by
  cases o with
  | ref id =>
      rw [read]
      generalize hs₁ : (if (p.global? id).isSome then s.reference id else s) = s₁
      have h₁ : Sets (fun id' last => Operand.ref id = .ref id' ∧ last = upTo) s s₁ ∧
          id.index < s₁.lastReads.size := by
        subst hs₁
        split
        · exact ⟨sets_reference _ s id, (knows_reference s id).size ▸ hid id rfl⟩
        · exact ⟨Sets.refl _ s, hid id rfl⟩
      have hset : ∃ s', s₁.setLastRead id upTo = .ok s' ∧
          Sets (fun id' last => Operand.ref id = .ref id' ∧ last = upTo) s s' := by
        obtain ⟨s', hs', hsets⟩ := setLastRead_ok h₁.2 upTo
        exact ⟨s', hs', h₁.1.trans (hsets.mono fun _ _ h => ⟨h.1 ▸ rfl, h.2⟩)⟩
      cases s₁.lastRead? id with
      | none => exact hset
      | some furthest =>
          dsimp only
          split
          · exact hset
          · exact ⟨s₁, rfl, h₁.1⟩
  | _ => exact ⟨s, rfl, Sets.refl _ s⟩

theorem foldlM_read_ok {args : List Operand}
    (hid : ∀ id, .ref id ∈ args → id.index < s.lastReads.size) :
    ∃ s', args.foldlM (read p cf upTo) s = .ok s' ∧
      Sets (fun id last => .ref id ∈ args ∧ last = upTo) s s' := by
  induction args generalizing s with
  | nil => exact ⟨s, rfl, Sets.refl _ s⟩
  | cons o args ih =>
      obtain ⟨s₁, h₁, hsets⟩ : ∃ s₁, read p cf upTo s o = .ok s₁ ∧
          Sets (fun id last => o = .ref id ∧ last = upTo) s s₁ :=
        read_ok fun id ho => hid id (ho ▸ List.mem_cons_self ..)
      obtain ⟨s', h', hsets'⟩ := ih (s := s₁) fun id hmem => by
        rw [(knows_read h₁).size]
        exact hid id (List.mem_cons_of_mem _ hmem)
      refine ⟨s', ?_, ?_⟩
      · rw [List.foldlM_cons, h₁]
        exact h'
      · exact (hsets.mono fun _ _ h => ⟨h.1 ▸ List.mem_cons_self .., h.2⟩).trans
          (hsets'.mono fun _ _ h => ⟨List.mem_cons_of_mem _ h.1, h.2⟩)

theorem noteResult_ok (hresult : ∀ id, instr.result = some id → id.index < s.lastReads.size ∧ id ∉ s.referenced ∧
      ∀ last, s.lastRead? id = some last → last.isAfter ⟨s.block, i⟩ cf) :
    ∃ s', noteResult cf i instr s = .ok s' ∧ Sets (fun id _ => instr.result = some id) s s' := by
  unfold noteResult
  cases hid : instr.result with
  | none => exact ⟨s, rfl, Sets.refl _ s⟩
  | some id =>
      obtain ⟨hsize, hnew, hafter⟩ := hresult id hid
      obtain ⟨s', hs', hsets⟩ := define_ok hnew hsize hafter
      exact ⟨s', hs', hsets.mono fun id' _ heq => congrArg some heq.symm⟩

theorem noteArgs_ok (hnop : ¬ instr.isNop) (hreads : ∀ id ∈ instr.reads, id.index < s.lastReads.size) :
    ∃ s', noteArgs p cf starts count i instr s = .ok s' ∧
      Sets (fun id last => id ∈ instr.reads ∧ last = reach cf starts count s.block i instr) s s' := by
  unfold noteArgs
  split
  · exact ⟨s, rfl, Sets.refl _ s⟩
  · next hphi =>
      have hmem : ∀ id, .ref id ∈ instr.args → id ∈ instr.reads := fun id hid =>
        Instr.mem_reads.2 ⟨hnop, hphi, hid⟩
      obtain ⟨s', hs', hsets⟩ := foldlM_read_ok fun id hid => hreads id (hmem id hid)
      exact ⟨s', hs', hsets.mono fun id _ h => h.imp_left (hmem id)⟩

/-- An instruction is noted when its result is new and what it names is in range; what it adds are last
    reads of its result and of what it reads. -/
theorem note_ok (hnames : ∀ id ∈ instr.names, id.index < s.lastReads.size)
    (hresult : ∀ id, instr.defined? = some id → id ∉ s.referenced ∧
      ∀ last, s.lastRead? id = some last → last.isAfter ⟨s.block, i⟩ cf) :
    ∃ s', note p cf starts count i instr s = .ok s' ∧
      Sets (fun id last => instr.defined? = some id ∨
        (id ∈ instr.reads ∧ last = reach cf starts count s.block i instr)) s s' := by
  unfold note
  by_cases hnop : instr.isNop
  · rw [if_pos hnop]
    exact ⟨s, rfl, Sets.refl _ s⟩
  rw [if_neg hnop]
  have hdefined : instr.defined? = instr.result := if_neg hnop
  have hsize : ∀ id, (instr.result = some id ∨ id ∈ instr.reads) → id.index < s.lastReads.size := by
    intro id hid
    refine hnames id ?_
    rw [Instr.names, if_neg hnop, List.mem_append, Option.mem_toList]
    exact hid
  obtain ⟨s₁, h₁, hsets₁⟩ := noteResult_ok fun id hid => ⟨hsize id (.inl hid), hresult id (hdefined.trans hid)⟩
  have hblock : s₁.block = s.block := (extends_noteResult (f := default) h₁).block
  obtain ⟨s₂, h₂, hsets₂⟩ : ∃ s₂, noteArgs p cf starts count i instr s₁ = .ok s₂ ∧ _ :=
    noteArgs_ok hnop fun id hid => (knows_noteResult h₁).size ▸ hsize id (.inr hid)
  refine ⟨s₂.behind instr, ?_, fun id last hlast => ?_⟩
  · rw [h₁]
    show noteArgs p cf starts count i instr s₁ >>= _ = _
    rw [h₂]
    rfl
  · have hbehind : (s₂.behind instr).lastRead? id = s₂.lastRead? id := by
      rw [lastRead?, lastReads_behind, lastRead?]
    rw [hbehind] at hlast
    rcases hsets₂ id last hlast with hlast | ⟨hmem, hlast⟩
    · exact (hsets₁ id last hlast).imp_right fun hid => .inl (hdefined.trans hid)
    · exact .inr (.inr ⟨hmem, hblock ▸ hlast⟩)

/-- What the walk has found when it comes to a position of a function that is well defined: it has
    referenced globals and what is defined before, and it has kept what is not defined before for reads
    before. -/
structure Found (p : Program) (f : Function) (cf : ControlFlow) (starts : List Nat) (i : Nat)
    (s : LiveRanges) : Prop where
  block : s.block = f.blockOf i
  size : s.lastReads.size = p.idCount
  referenced : ∀ id ∈ s.referenced, (p.global? id).isSome ∨ ∃ n < i, f.DefinedAt n id
  lastRead : ∀ id last, s.lastRead? id = some last → (∃ n < i, f.DefinedAt n id) ∨
    ∃ m < i, ∃ x, f.instrs[m]? = some x ∧ id ∈ x.reads ∧
      last = reach cf starts f.instrs.size (f.blockOf m) m x

theorem Found.note (hcf : cf = .ofLinks f.blocks.size f.links) (hf : f.WellDefined p)
    (hs : s.Found p f cf starts i) (hi : f.instrs[i]? = some instr) :
    ∃ s', LiveRanges.note p cf starts f.instrs.size i instr s = .ok s' ∧
      s'.Found p f cf starts (i + 1) := by
  have hlt : i < f.instrs.size := (Array.getElem?_eq_some_iff.1 hi).1
  have hnames : ∀ id ∈ instr.names, id.index < s.lastReads.size := by
    intro id hid
    rw [hs.size]
    unfold Instr.names at hid
    split at hid
    · cases hid
    · next hnop =>
        rcases List.mem_append.1 hid with hid | hid
        · rw [Option.mem_toList] at hid
          exact (hf.defined ⟨instr, hi, (if_neg hnop).trans hid⟩).1
        · rcases hf.reads hi hid with ⟨-, h⟩ | ⟨n, hn, -⟩
          · exact h
          · exact (hf.defined hn).1
  have hresult : ∀ id, instr.defined? = some id → id ∉ s.referenced ∧
      ∀ last, s.lastRead? id = some last → last.isAfter ⟨s.block, i⟩ cf := by
    intro id hid
    have hdef : f.DefinedAt i id := ⟨instr, hi, hid⟩
    have hfirst : ¬ ∃ n < i, f.DefinedAt n id := fun ⟨n, hn, hdef'⟩ =>
      Nat.ne_of_lt hn (hf.distinct hdef' hdef)
    refine ⟨fun hmem => ?_, fun last hlast => ?_⟩
    · exact (hs.referenced id hmem).elim (hf.defined hdef).2 hfirst
    · obtain ⟨m, hm, x, hx, hread, rfl⟩ := (hs.lastRead id last hlast).resolve_left hfirst
      rcases hf.reads hx hread with ⟨hglobal, -⟩ | ⟨n, hn, hprecedes⟩
      · exact absurd hglobal (hf.defined hdef).2
      · obtain rfl := hf.distinct hn hdef
        have hblock : f.blockOf m < f.blocks.size :=
          hf.runs ▸ Function.blockOf_lt_runs (Array.getElem?_eq_some_iff.1 hx).1
        rw [hs.block]
        exact hprecedes.isAfter_reach hcf hm (hf.reachable _ hblock)
  obtain ⟨s', hs', hsets⟩ : ∃ s', LiveRanges.note p cf starts f.instrs.size i instr s = .ok s' ∧
      Sets (fun id last => instr.defined? = some id ∨
        (id ∈ instr.reads ∧ last = reach cf starts f.instrs.size s.block i instr)) s s' :=
    note_ok hnames hresult
  have hadds := adds_note hs'
  refine ⟨s', hs', ?_, ?_, fun id hid => ?_, fun id last hlast => ?_⟩
  · rw [(note_spec hcf hlt hs').2.2, hs.block, Function.blockOf_succ hi]
  · rw [(knows_note hs').size, hs.size]
  · rcases (hadds.referenced id).1 hid with hid | hid | ⟨-, hglobal⟩
    · exact (hs.referenced id hid).imp_right fun ⟨n, hn, hdef⟩ => ⟨n, Nat.lt_succ_of_lt hn, hdef⟩
    · exact .inr ⟨i, Nat.lt_succ_self i, instr, hi, hid⟩
    · exact .inl hglobal
  · rcases hsets id last hlast with hlast | hid | ⟨hid, hlast⟩
    · rcases hs.lastRead id last hlast with ⟨n, hn, hdef⟩ | ⟨m, hm, hread⟩
      · exact .inl ⟨n, Nat.lt_succ_of_lt hn, hdef⟩
      · exact .inr ⟨m, Nat.lt_succ_of_lt hm, hread⟩
    · exact .inl ⟨i, Nat.lt_succ_self i, instr, hi, hid⟩
    · exact .inr ⟨i, Nat.lt_succ_self i, instr, hi, hid, hs.block ▸ hlast⟩

theorem Found.walk (hcf : cf = .ofLinks f.blocks.size f.links) (hf : f.WellDefined p)
    {instrs : List Instr} (hs : s.Found p f cf starts i)
    (hinstrs : ∀ n instr, instrs[n]? = some instr → f.instrs[i + n]? = some instr) :
    ∃ s', LiveRanges.walk p cf starts f.instrs.size i instrs s = .ok s' := by
  induction instrs generalizing i s with
  | nil => exact ⟨s, rfl⟩
  | cons instr rest ih =>
      obtain ⟨s₁, h₁, hs₁⟩ := hs.note hcf hf (hinstrs 0 instr rfl)
      obtain ⟨s', h'⟩ := ih hs₁ fun n x hx => by
        rw [Nat.add_assoc, Nat.add_comm 1 n]
        exact hinstrs (n + 1) x hx
      exact ⟨s', by rw [LiveRanges.walk, h₁]; exact h'⟩

end LiveRanges

/-! ## Phi nodes -/

theorem notePhiArgs_ok {reads : Array (List Id)} {args : List Operand} (h : PhiPairs reads.size args) :
    ∃ reads', notePhiArgs reads args = .ok reads' := by
  fun_induction notePhiArgs reads args with
  | case1 reads => exact ⟨reads, rfl⟩
  | case2 => cases h
  | case3 reads id source rest hnone =>
      obtain ⟨b, -, rfl⟩ := h.1 rfl
      cases hnone
  | case4 reads id source rest b hb hlt ih => exact ih (by simpa using h.2)
  | case5 reads id source rest b hb hlt =>
      obtain ⟨b', hlt', rfl⟩ := h.1 rfl
      cases hb
      exact absurd hlt' hlt
  | case6 reads o source rest _ ih => exact ih h.2

theorem foldlM_notePhiArgs_ok {phis : List Instr} {reads : Array (List Id)}
    (h : ∀ i ∈ phis, PhiPairs reads.size i.args) :
    ∃ reads', phis.foldlM (fun reads i => notePhiArgs reads i.args) reads = .ok reads' := by
  induction phis generalizing reads with
  | nil => exact ⟨reads, rfl⟩
  | cons i phis ih =>
      obtain ⟨reads₁, h₁⟩ := notePhiArgs_ok (h i (List.mem_cons_self ..))
      have hrest : ∀ j ∈ phis, PhiPairs reads₁.size j.args := fun j hj =>
        size_of_notePhiArgs h₁ ▸ h j (List.mem_cons_of_mem _ hj)
      obtain ⟨reads', h'⟩ := ih hrest
      exact ⟨reads', by rw [List.foldlM_cons, h₁]; exact h'⟩

/-! ## The analysis -/

namespace FunctionAnalysis

variable {p : Program} {f : Function} {index offset : Nat}

/-- The analysis of a function succeeds if its blocks are located, the walk over its instructions
    succeeds, nothing else is read than what is referenced, and its phi nodes can be noted. -/
theorem exists_ofFunction_iff (hf : p.functions[index]? = some f) :
    (∃ a, ofFunction p index offset = .ok a) ↔
      ∃ starts s phiReads, f.blockStarts = .ok starts ∧
        LiveRanges.walk p (.ofLinks f.blocks.size f.links) starts f.instrs.size 0 f.instrs.toList
          (initialRanges p) = .ok s ∧
        (s.lastReads.filter Option.isSome).size = s.referenced.length ∧
        (f.instrs.toList.filter fun i => i.op == .phi).foldlM
          (fun reads i => notePhiArgs reads i.args) (Array.replicate f.blocks.size []) = .ok phiReads := by
  unfold ofFunction
  rw [hf]
  constructor
  · rintro ⟨a, h⟩
    obtain ⟨starts, hstarts, h⟩ := ok_of_bind h
    obtain ⟨s, hs, h⟩ := ok_of_bind h
    obtain ⟨hcount, h⟩ := ok_of_guard h
    obtain ⟨phiReads, hphi, -⟩ := ok_of_bind h
    exact ⟨starts, s, phiReads, hstarts, hs, not_not.1 hcount, hphi⟩
  · rintro ⟨starts, s, phiReads, hstarts, hs, hcount, hphi⟩
    unfold initialRanges at hs
    simp only [hstarts, hs, hcount, hphi, bind, Except.bind, pure, Except.pure, ne_eq,
      not_true_eq_false, if_false]
    exact ⟨_, rfl⟩

/-- What the walk has found when it is through: what is referenced is defined or a global that is read,
    and what has a last read is defined or read. -/
theorem walk_initialRanges {cf : ControlFlow} {starts : List Nat} {s : LiveRanges}
    (h : LiveRanges.walk p cf starts f.instrs.size 0 f.instrs.toList (initialRanges p) = .ok s) :
    s.referenced.Nodup ∧
      (∀ id, id ∈ s.referenced ↔ (∃ n, f.DefinedAt n id) ∨ ((p.global? id).isSome ∧ f.Reads id)) ∧
      ∀ id, (s.lastRead? id).isSome ↔ (∃ n, f.DefinedAt n id) ∨ f.Reads id := by
  have hadds := LiveRanges.adds_walk h
  have hinitial : ∀ id, ((initialRanges p).lastRead? id).isSome = false := by
    intro id
    simp only [LiveRanges.lastRead?, initialRanges, Array.getElem?_replicate]
    split <;> rfl
  have hmem : ∀ x, x ∈ f.instrs.toList ↔ ∃ n : Nat, f.instrs[n]? = some x := by
    intro x
    simp [List.mem_iff_getElem?]
  refine ⟨hadds.nodup List.nodup_nil, fun id => ?_, fun id => ?_⟩
  · rw [hadds.referenced]
    simp only [initialRanges, List.not_mem_nil, false_or, hmem, Function.DefinedAt, Function.Reads]
    grind
  · rw [hadds.lastRead, hinitial]
    simp only [Bool.false_eq_true, false_or, hmem, Function.DefinedAt, Function.Reads]
    grind

/-- When the analysis of a function succeeds, no identifier is the result of two instructions, and what
    an instruction reads is an identifier of the program that is a global or the result of an
    instruction. It succeeds for every function in static single assignment form all of whose blocks
    can be reached, in whatever order they stand. -/
theorem accepts_definedReads (hf : p.functions[index]? = some f) :
    ((∃ a, ofFunction p index offset = .ok a) →
      (∀ n m id, f.DefinedAt n id → f.DefinedAt m id → n = m) ∧
        ∀ (m : Nat) (i : Instr) (id : Id), f.instrs[m]? = some i → id ∈ i.reads →
          id.index < p.idCount ∧ ((p.global? id).isSome ∨ ∃ n, f.DefinedAt n id)) ∧
      (f.WellDefined p → ∃ a, ofFunction p index offset = .ok a) := by
  constructor
  · rintro ⟨a, ha⟩
    obtain ⟨f', hf', hdescribes⟩ := describes_of_ofFunction ha
    obtain rfl : f = f' := Option.some.inj (hf.symm.trans hf')
    obtain ⟨starts, s, -, -, hwalk, hcount, -⟩ := (exists_ofFunction_iff hf).1 ⟨a, ha⟩
    obtain ⟨hnodup, hreferenced, htracked⟩ := walk_initialRanges hwalk
    refine ⟨fun n m id ⟨x, hx, hid⟩ ⟨y, hy, hid'⟩ => hdescribes.eq_of_defined hx hy hid hid', ?_⟩
    intro m i id hi hid
    have hnames : id ∈ i.names := by
      unfold Instr.names
      rw [if_neg (Instr.mem_reads.1 hid).1]
      exact List.mem_append_right _ hid
    refine ⟨hdescribes.named hi hnames, ?_⟩
    -- what is referenced has a last read, so the numbers say that what has one is referenced
    have hall := (LiveRanges.size_eq_iff hnodup fun id hid =>
      (htracked id).2 (((hreferenced id).1 hid).imp_right And.right)).1 hcount
    have hmem := hall id ((htracked id).2 (.inr ⟨m, i, hi, hid⟩))
    exact ((hreferenced id).1 hmem).symm.imp_left And.left
  · intro hwell
    obtain ⟨starts, hstarts⟩ := Function.blockStarts_of_runs hwell.runs
    have hfound : (initialRanges p).Found p f (.ofLinks f.blocks.size f.links) starts 0 := by
      refine ⟨rfl, Array.size_replicate, fun id hid => absurd hid List.not_mem_nil,
        fun id last hlast => ?_⟩
      simp only [LiveRanges.lastRead?, initialRanges, Array.getElem?_replicate] at hlast
      split at hlast <;> cases hlast
    have hinstrs : ∀ n x, f.instrs.toList[n]? = some x → f.instrs[0 + n]? = some x := fun n x hx => by
      rwa [Nat.zero_add, ← Array.getElem?_toList]
    obtain ⟨s, hs⟩ := hfound.walk rfl hwell hinstrs
    obtain ⟨hnodup, hreferenced, htracked⟩ := walk_initialRanges hs
    have hcount : (s.lastReads.filter Option.isSome).size = s.referenced.length := by
      refine (LiveRanges.size_eq_iff hnodup fun id hid =>
        (htracked id).2 (((hreferenced id).1 hid).imp_right And.right)).2 fun id hid => ?_
      refine (hreferenced id).2 ?_
      rcases (htracked id).1 hid with hdef | ⟨m, i, hi, hread⟩
      · exact .inl hdef
      · rcases hwell.reads hi hread with ⟨hglobal, -⟩ | ⟨n, hn, -⟩
        · exact .inr ⟨hglobal, m, i, hi, hread⟩
        · exact .inl ⟨n, hn⟩
    have hpairs : ∀ i ∈ f.instrs.toList.filter fun i => i.op == .phi,
        PhiPairs (Array.replicate f.blocks.size ([] : List Id)).size i.args := by
      intro i hi
      obtain ⟨hmem, hop⟩ := List.mem_filter.1 hi
      obtain ⟨n, hn⟩ := List.getElem?_of_mem hmem
      rw [Array.size_replicate]
      exact hwell.phis (Array.getElem?_toList ▸ hn) (eq_of_beq hop)
    obtain ⟨phiReads, hphi⟩ := foldlM_notePhiArgs_ok hpairs
    exact (exists_ofFunction_iff hf).2 ⟨starts, s, phiReads, hstarts, hs, hcount, hphi⟩

/-- A function whose second block is a loop that counts up to `%0`. The block that defines `%0` comes
    before it in the flow graph, and behind it in the instruction sequence. -/
def backwardLayout : Function :=
  { name := "backwardLayout"
    blocks := #[{}, { preds := [2, 1] }, { preds := [0] }, { preds := [1] }]
    instrs := #[
      { op := .br, args := [.block 2] },
      { op := .phi, ty := .int 32, result := some ⟨1⟩,
        args := [.const (.int 32 0), .block 2, .ref ⟨2⟩, .block 1] },
      { op := .add, ty := .int 32, result := some ⟨2⟩, args := [.ref ⟨1⟩, .const (.int 32 1)] },
      { op := .iEqual, ty := .int 1, result := some ⟨3⟩, args := [.ref ⟨2⟩, .ref ⟨0⟩] },
      { op := .br, args := [.block 3, .block 1, .ref ⟨3⟩] },
      { op := .call, ty := .int 32, result := some ⟨0⟩,
        callee := some (.intrinsic .flattenedThreadIdInGroup) },
      { op := .br, args := [.block 1] },
      { op := .ret }] }

/-- The program that consists of this function. -/
def backwardLayoutProgram : Program :=
  { stage := .compute, functions := #[backwardLayout], idCount := 4 }

/-- All blocks but the entry are reached through the one that defines `%0`. -/
theorem backwardLayout_dominates : backwardLayout.Dominates 2 1 := by
  have h : ∀ path e, Walk backwardLayout.Linked 0 path e → e ≠ 0 → 2 ∈ path := by
    intro path e hpath
    induction hpath with
    | nil => exact fun hne => absurd rfl hne
    | @snoc path a e hp hae ih =>
        intro _
        have hlinks : (a, e) ∈ [(2, 1), (1, 1), (0, 2), (1, 3)] := hae
        have hcases : a = 2 ∨ a = 1 ∨ e = 2 := by
          simp only [List.mem_cons, Prod.mk.injEq, List.not_mem_nil, or_false] at hlinks
          omega
        rcases hcases with rfl | rfl | rfl
        · exact List.mem_append_left _ hp.end_mem
        · exact List.mem_append_left _ (ih Nat.one_ne_zero)
        · exact List.mem_append_right _ (List.mem_singleton.2 rfl)
  exact fun path hpath => h path 1 hpath Nat.one_ne_zero

theorem backwardLayout_wellDefined : backwardLayout.WellDefined backwardLayoutProgram := by
  have hlt : ∀ {n : Nat} {x : Instr}, backwardLayout.instrs[n]? = some x → n < 8 := fun hx =>
    (Array.getElem?_eq_some_iff.1 hx).1
  have hpositions : ∀ n < 8, ∀ x ∈ backwardLayout.instrs[n]?, ∀ id ∈ x.defined?,
      [5, 1, 2, 3][id.index]? = some n := by decide
  have hdefined : ∀ k < 4, ∀ n ∈ [5, 1, 2, 3][k]?,
      (backwardLayout.instrs[n]?.bind Instr.defined?) = some ⟨k⟩ := by decide
  have hreads : ∀ m < 8, ∀ i ∈ backwardLayout.instrs[m]?, ∀ id ∈ i.reads,
      ∃ n ∈ [5, 1, 2, 3][id.index]?, (backwardLayout.blockOf n = backwardLayout.blockOf m ∧ n < m) ∨
        (backwardLayout.blockOf n = 2 ∧ backwardLayout.blockOf m = 1) := by decide
  refine ⟨rfl, ?_, fun {n i} hi hop => ?_, fun {n id} ⟨x, hx, hid⟩ => ?_, ?_, fun {m i id} hi hid => ?_⟩
  · have h02 : backwardLayout.Linked 0 2 := by unfold Function.Linked; decide
    have h21 : backwardLayout.Linked 2 1 := by unfold Function.Linked; decide
    have h13 : backwardLayout.Linked 1 3 := by unfold Function.Linked; decide
    intro b hb
    have hcases : b = 0 ∨ b = 2 ∨ b = 1 ∨ b = 3 := by
      have : b < 4 := hb
      omega
    rcases hcases with rfl | rfl | rfl | rfl
    · exact .refl
    · exact .single h02
    · exact .tail (.single h02) h21
    · exact .tail (.tail (.single h02) h21) h13
  · have hphi : ∀ n < 8, ∀ i ∈ backwardLayout.instrs[n]?, i.op = .phi → n = 1 := by decide
    obtain rfl := hphi n (hlt hi) i hi hop
    cases hi
    exact ⟨fun h => absurd h (by decide), fun _ => ⟨1, by decide, rfl⟩, trivial⟩
  · have hsome := hpositions n (hlt hx) x hx id hid
    exact ⟨(List.getElem?_eq_some_iff.1 hsome).1, by simp [Program.global?, backwardLayoutProgram]⟩
  · rintro n m id ⟨x, hx, hid⟩ ⟨y, hy, hid'⟩
    have hn := hpositions n (hlt hx) x hx id hid
    have hm := hpositions m (hlt hy) y hy id hid'
    exact Option.some.inj (hn.symm.trans hm)
  · obtain ⟨n, hn, hplace⟩ := hreads m (hlt hi) i hi id hid
    have hk : id.index < 4 := (List.getElem?_eq_some_iff.1 hn).1
    obtain ⟨x, hx, hid'⟩ := Option.bind_eq_some_iff.1 (hdefined id.index hk n hn)
    refine .inr ⟨n, ⟨x, hx, hid'⟩, ?_⟩
    rcases hplace with ⟨hblock, hnm⟩ | ⟨hn2, hm1⟩
    · exact .of_lt hblock hnm
    · refine ⟨hn2 ▸ hm1 ▸ backwardLayout_dominates, fun heq => ?_⟩
      omega

/-- The function is analysed, and `%0` is read by an instruction that stands before its definition. -/
theorem backwardLayout_is_accepted :
    backwardLayoutProgram.functions[0]? = some backwardLayout ∧ backwardLayout.WellDefined backwardLayoutProgram ∧
      (∃ a, ofFunction backwardLayoutProgram 0 0 = .ok a) ∧
      (∃ i, backwardLayout.instrs[3]? = some i ∧ ⟨0⟩ ∈ i.reads) ∧ backwardLayout.DefinedAt 5 ⟨0⟩ := by
  have hf : backwardLayoutProgram.functions[0]? = some backwardLayout := rfl
  have haccepts : ∃ a, ofFunction backwardLayoutProgram 0 0 = .ok a :=
    (accepts_definedReads hf).2 backwardLayout_wellDefined
  exact ⟨hf, backwardLayout_wellDefined, haccepts, ⟨_, rfl, by decide⟩, ⟨_, rfl, rfl⟩⟩

end FunctionAnalysis

end Lockstep
