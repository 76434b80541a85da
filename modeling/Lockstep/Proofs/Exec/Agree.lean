import Lockstep.Exec.Dispatch
import Lockstep.Proofs.Blocks
import Mathlib.Data.List.Forall2

set_option autoImplicit false

/-! # What instructions read of a lane

Two lanes agree for an instruction when they have the same values of its operands and the same of what
else instructions read (`Lane.Agrees`). Where the lanes are in the group, what they have put out and
what they have reported is left open. An instruction that only computes has one result in lanes that
agree, one lemma for each family. -/

namespace Lockstep

namespace Lane

/-- Two lanes have the same of everything that an instruction reads. -/
structure Agrees (i : Instr) (l l' : Lane) : Prop where
  stage : l'.stage = l.stage
  function : l'.function = l.function
  instr : l'.instr = l.instr
  previousBlock : l'.previousBlock = l.previousBlock
  size : l'.cells.size = l.cells.size
  input : l'.input = l.input
  memory : l'.memory = l.memory
  phiValues : l'.phiValues = l.phiValues
  builtins : l'.builtins = l.builtins
  references : l'.references = l.references
  properties : l'.properties = l.properties
  value : ∀ id, .ref id ∈ i.args → l'.value? id = l.value? id

namespace Agrees

variable {i : Instr} {l l' : Lane}

theorem refl (i : Instr) (l : Lane) : Agrees i l l :=
  ⟨rfl, rfl, rfl, rfl, rfl, rfl, rfl, rfl, rfl, rfl, rfl, fun _ _ => rfl⟩

/-! ## Operands -/

theorem operand (h : Agrees i l l') {o : Operand} (ho : o ∈ i.args) (flush : Bool) :
    l'.operand o flush = l.operand o flush := by
  cases o with
  | ref id => simp only [Lane.operand, h.value id ho]
  | const c => rfl
  | block b => rfl
  | undef ty => rfl

theorem arg (h : Agrees i l l') (index : Nat) : l'.arg i index = l.arg i index := by
  unfold Lane.arg
  split
  · rfl
  · next o ho => exact h.operand (List.mem_of_getElem? ho) _

theorem argWord (h : Agrees i l l') (index : Nat) : l'.argWord i index = l.argWord i index := by
  unfold Lane.argWord
  rw [h.arg]

theorem argWord32 (h : Agrees i l l') (index : Nat) :
    l'.argWord32 i index = l.argWord32 i index := by
  unfold Lane.argWord32
  rw [h.arg]

theorem argNat (h : Agrees i l l') (index : Nat) : l'.argNat i index = l.argNat i index := by
  unfold Lane.argNat
  rw [h.argWord32]

theorem argSingle (h : Agrees i l l') (index : Nat) :
    l'.argSingle i index = l.argSingle i index := by
  unfold Lane.argSingle
  rw [h.arg]

theorem argWord32OrZero (h : Agrees i l l') (index : Nat) :
    l'.argWord32OrZero i index = l.argWord32OrZero i index := by
  unfold Lane.argWord32OrZero
  rw [h.argWord32]

theorem argSingleOrZero (h : Agrees i l l') (index : Nat) :
    l'.argSingleOrZero i index = l.argSingleOrZero i index := by
  unfold Lane.argSingleOrZero
  rw [h.argSingle]

/-! ## Branches and choices -/

theorem branch (h : Agrees i l l') : l'.branch i = l.branch i := by
  unfold Lane.branch
  split <;> simp only [h.argWord]

theorem switchTarget (h : Agrees i l l') (value : UInt64) (default : Nat) {cases : List Operand}
    (hcases : ∀ o ∈ cases, o ∈ i.args) :
    l'.switchTarget value default cases = l.switchTarget value default cases := by
  fun_induction caseTargets cases with
  | case1 case target rest ih =>
      rw [Lane.switchTarget, Lane.switchTarget, h.operand (hcases _ (List.mem_cons_self ..)),
        ih fun o ho => hcases o (List.mem_cons_of_mem _ (List.mem_cons_of_mem _ ho))]
  | case2 cases hno =>
      cases cases with
      | nil => rfl
      | cons case rest => rw [Lane.switchTarget, Lane.switchTarget] <;> simp_all

theorem switch (h : Agrees i l l') : l'.switch i = l.switch i := by
  unfold Lane.switch
  simp only [h.argWord, h.switchTarget _ _ fun o ho => List.mem_of_mem_drop ho]

theorem terminate (h : Agrees i l l') : l'.terminate i = l.terminate i := by
  unfold Lane.terminate
  rw [h.branch, h.switch]

theorem phi (h : Agrees i l l') : l'.phi i = l.phi i := by
  unfold Lane.phi
  rw [h.previousBlock, h.phiValues, h.function]
  congr 1
  funext id
  cases hphi : phiOperand l.previousBlock i.args with
  | error fault => rfl
  | ok o =>
      cases o with
      | none => rfl
      | some o =>
          cases o with
          | ref src => rfl
          | const c => rfl
          | block b => rfl
          | undef ty => rfl

theorem select (h : Agrees i l l') : l'.select i = l.select i := by
  unfold Lane.select
  simp only [h.arg]

/-! ## Numbers and vectors -/

theorem arithmetic (h : Agrees i l l') : l'.arithmetic i = l.arithmetic i := by
  unfold Lane.arithmetic
  simp only [h.arg]

theorem compare (h : Agrees i l l') : l'.compare i = l.compare i := by
  unfold Lane.compare
  simp only [h.arg]

theorem cast (h : Agrees i l l') : l'.cast i = l.cast i := by
  unfold Lane.cast
  simp only [h.arg]

theorem extractFrom (h : Agrees i l l') (id : Id) (result current : Variable) (index count : Nat) :
    l'.extractFrom i id result current index count = l.extractFrom i id result current index count := by
  induction count generalizing current index with
  | zero => rfl
  | succ n ih => simp only [Lane.extractFrom, h.argNat, ih]

theorem vector (h : Agrees i l l') : l'.vector i = l.vector i := by
  unfold Lane.vector
  simp only [h.arg, h.argNat, h.extractFrom]

theorem dotFrom (h : Agrees i l l') (op : Intrinsic) (elem : ElemType) (size : Nat) (acc : UInt64)
    (c count : Nat) : l'.dotFrom i op elem size acc c count = l.dotFrom i op elem size acc c count := by
  induction count generalizing acc c with
  | zero => rfl
  | succ n ih => simp only [Lane.dotFrom, h.argWord, ih]

theorem otherMath? (h : Agrees i l l') (op : Intrinsic) : l'.otherMath? i op = l.otherMath? i op := by
  unfold Lane.otherMath? floatMath floatMulAdd intMulAdd makeDouble splitDouble toHalfBits ofHalfBits
  simp only [h.arg, h.argWord, h.argWord32, h.argSingle]

theorem math? (h : Agrees i l l') (op : Intrinsic) : l'.math? i op = l.math? i op := by
  unfold Lane.math? roundMath classifyMath intMath dot bitMath
  simp only [h.arg, h.dotFrom, h.otherMath?]

/-! ## Signature, builtin values and handles -/

theorem loadInput (h : Agrees i l l') : l'.loadInput i = l.loadInput i := by
  unfold Lane.loadInput
  simp only [h.argNat, h.input]

theorem readBuiltin (h : Agrees i l l') (b : Bindings) (op : Intrinsic) (builtin : Builtin) :
    l'.readBuiltin b i op builtin = l.readBuiltin b i op builtin := by
  unfold Lane.readBuiltin
  simp only [h.argNat, h.builtins]

theorem discard (h : Agrees i l l') : l'.discard i = l.discard i := by
  unfold Lane.discard
  rw [h.argWord32]

theorem declared (h : Agrees i l l') (p : Program) (op : Intrinsic) (cls : ResourceClass) :
    l'.declared p i op cls = l.declared p i op cls := by
  unfold Lane.declared
  simp only [h.argWord32]

theorem createHandle (h : Agrees i l l') {s s' : Setting} (hprogram : s'.program = s.program)
    (hbindings : s'.bindings = s.bindings) (op : Intrinsic) :
    l'.createHandle s' i op = l.createHandle s i op := by
  unfold Lane.createHandle
  simp only [h.argNat, h.declared, hprogram, hbindings]

theorem handle (h : Agrees i l l') (p : Program) {id : Id} (hid : .ref id ∈ i.args) :
    l'.handle p id = l.handle p id := by
  unfold Lane.handle
  rw [h.value id hid, h.properties, h.references]

/-! ## Resources -/

theorem address (h : Agrees i l l') (start : Nat) (isTexture : Bool) :
    l'.address i start isTexture = l.address i start isTexture := by
  unfold Lane.address
  simp only [h.argWord32OrZero]

theorem storedValues (h : Agrees i l l') (start : Nat) :
    l'.storedValues i start = l.storedValues i start := by
  unfold Lane.storedValues
  simp only [h.arg]

theorem singlesInto (h : Agrees i l l') (start : Nat) (v : Variable) (c count : Nat) :
    l'.singlesInto i start v c count = l.singlesInto i start v c count := by
  induction count generalizing v c with
  | zero => rfl
  | succ n ih => simp only [Lane.singlesInto, h.argSingle, ih]

theorem texelOffset (h : Agrees i l l') (index : Nat) :
    l'.texelOffset i index = l.texelOffset i index := by
  unfold Lane.texelOffset
  rw [h.arg]

theorem texelOffsets (h : Agrees i l l') (count : Nat) :
    l'.texelOffsets i count = l.texelOffsets i count := by
  unfold Lane.texelOffsets
  simp only [h.texelOffset]

theorem gatherChannel (h : Agrees i l l') (index : Option Nat) :
    l'.gatherChannel i index = l.gatherChannel i index := by
  cases index with
  | none => rfl
  | some index => simp only [Lane.gatherChannel, h.argNat]

theorem optionalSingle (h : Agrees i l l') (index : Option Nat) :
    l'.optionalSingle i index = l.optionalSingle i index := by
  cases index with
  | none => rfl
  | some index => exact h.argSingleOrZero index

theorem givenGradients (h : Agrees i l l') (start : Nat) (ddx ddy : Variable) (c : Nat)
    (coords : List Operand) :
    l'.givenGradients i start ddx ddy c coords = l.givenGradients i start ddx ddy c coords := by
  induction coords generalizing ddx ddy c with
  | nil => rfl
  | cons o rest ih => simp only [Lane.givenGradients, h.argSingleOrZero, ih]

theorem loadLevel (h : Agrees i l l') (kind : ResourceKind) (r : SampleRequest) :
    l'.loadLevel i kind r = l.loadLevel i kind r := by
  unfold Lane.loadLevel
  simp only [h.argWord32]

theorem loadCoords (h : Agrees i l l') (r : SampleRequest) (c count : Nat) :
    l'.loadCoords i r c count = l.loadCoords i r c count := by
  induction count generalizing r c with
  | zero => rfl
  | succ n ih => simp only [Lane.loadCoords, h.argWord32, h.texelOffset, ih]

theorem loadRequest (h : Agrees i l l') (r : SampleRequest) :
    l'.loadRequest i r = l.loadRequest i r := by
  unfold Lane.loadRequest
  simp only [h.loadLevel, h.loadCoords]

theorem blankRequest (h : Agrees i l l') (op : Intrinsic) (ref : ResourceRef) :
    l'.blankRequest op ref = l.blankRequest op ref := by
  unfold Lane.blankRequest
  rw [h.stage, h.instr]

theorem chooseLod (h : Agrees i l l') (op : Intrinsic) (answer result : Variable) :
    l'.chooseLod i op answer result = l.chooseLod i op answer result := by
  unfold Lane.chooseLod
  simp only [h.argWord32]

/-! ## Memory -/

theorem memoryOf (h : Agrees i l l') (shared : Memory) (base : Id) :
    l'.memoryOf shared base = l.memoryOf shared base := by
  unfold Lane.memoryOf
  rw [h.memory]

theorem resolve (h : Agrees i l l') (shared : Memory) (id : Id) :
    l'.resolve shared id = l.resolve shared id := by
  unfold Lane.resolve
  rw [h.memory]

theorem readThrough (h : Agrees i l l') (shared : Memory) (p : Pointer) :
    l'.readThrough shared p = l.readThrough shared p := by
  unfold Lane.readThrough
  rw [h.memoryOf]

theorem selectPath (h : Agrees i l l') (offset : Int) (ty : Ty) (index count : Nat) :
    l'.selectPath i offset ty index count = l.selectPath i offset ty index count := by
  induction count generalizing offset ty index with
  | zero => rfl
  | succ n ih => simp only [Lane.selectPath, h.arg, ih]

theorem derive (h : Agrees i l l') (shared : Memory) : l'.derive shared i = l.derive shared i := by
  unfold Lane.derive
  simp only [h.resolve, h.arg, h.selectPath, h.memoryOf]

end Agrees

/-! ## Groups -/

/-- What a lane shows to the others when an instruction looks at them. -/
structure Resembles (i : Instr) (l l' : Lane) : Prop where
  isFinished : l'.isFinished = l.isFinished
  position : l'.position = l.position
  operand : ∀ o ∈ i.args, l'.operand o true = l.operand o true

/-- Two groups show the same to a lane in each. -/
structure SameGroup (i : Instr) (l l' : Lane) (lanes lanes' : List Lane) : Prop where
  index : l'.index = l.index
  lanes : List.Forall₂ (Resembles i) lanes lanes'

namespace SameGroup

variable {i : Instr} {l l' : Lane} {lanes lanes' : List Lane}

theorem refl (i : Instr) (l : Lane) (lanes : List Lane) : SameGroup i l l lanes lanes :=
  ⟨rfl, List.forall₂_same.2 fun _ _ => ⟨rfl, rfl, fun _ _ => rfl⟩⟩

theorem length (h : SameGroup i l l' lanes lanes') : lanes'.length = lanes.length :=
  h.lanes.length_eq.symm

theorem diverged (h : SameGroup i l l' lanes lanes') : diverged lanes' = diverged lanes := by
  have hpositions : (lanes'.filter fun l => !l.isFinished).map Lane.position =
      (lanes.filter fun l => !l.isFinished).map Lane.position := by
    obtain ⟨-, hlanes⟩ := h
    induction hlanes with
    | nil => rfl
    | cons hl _ ih => simp only [List.filter_cons, hl.isFinished, apply_ite (List.map Lane.position),
        List.map_cons, hl.position, ih]
  unfold Lockstep.diverged
  rw [hpositions]

theorem valueIn (h : SameGroup i l l' lanes lanes') (index : Nat) {o : Operand} (ho : o ∈ i.args) :
    valueIn lanes' index o = valueIn lanes index o := by
  have hoperand : lanes'[index]?.map (·.operand o true) = lanes[index]?.map (·.operand o true) := by
    obtain ⟨-, hlanes⟩ := h
    induction hlanes generalizing index with
    | nil => rfl
    | cons hl _ ih =>
        cases index with
        | zero => exact congrArg some (hl.operand o ho)
        | succ index => exact ih index
  unfold Lockstep.valueIn
  cases hl' : lanes'[index]? <;> cases hl : lanes[index]? <;> simp_all

theorem derivative (h : SameGroup i l l' lanes lanes') {o : Operand} (ho : o ∈ i.args) (axis : Axis)
    (fine : Bool) : l'.derivative lanes' o axis fine = l.derivative lanes o axis fine := by
  unfold Lane.derivative
  simp only [h.length, h.diverged, h.index, h.valueIn _ ho]

theorem derivativeOf (h : SameGroup i l l' lanes lanes') (hl : l.Agrees i l') (op : Intrinsic)
    (axis : Axis) (fine : Bool) :
    l'.derivativeOf lanes' i op axis fine = l.derivativeOf lanes i op axis fine := by
  unfold Lane.derivativeOf isPixelQuad
  cases hargs : i.args with
  | nil => rfl
  | cons o rest =>
      simp only [List.head?_cons, h.length, hl.stage, h.derivative (hargs ▸ List.mem_cons_self ..)]

theorem coordinateDerivatives (h : SameGroup i l l' lanes lanes') (ddx ddy : Variable) (c : Nat)
    {coords : List Operand} (hcoords : ∀ o ∈ coords, o ∈ i.args) :
    l'.coordinateDerivatives lanes' ddx ddy c coords =
      l.coordinateDerivatives lanes ddx ddy c coords := by
  induction coords generalizing ddx ddy c with
  | nil => rfl
  | cons o rest ih =>
      have hrest : ∀ o ∈ rest, o ∈ i.args := fun o ho => hcoords o (List.mem_cons_of_mem _ ho)
      simp only [Lane.coordinateDerivatives, h.derivative (hcoords o (List.mem_cons_self ..)),
        ih _ _ _ hrest]

theorem barrier (h : SameGroup i l l' lanes lanes') (hl : l.Agrees i l') :
    l'.barrier lanes' i = l.barrier lanes i := by
  unfold Lane.barrier
  rw [hl.argWord32, h.diverged]

end SameGroup

/-- The request of an operation with a sampler depends on the group only where the operation takes
    derivatives of its coordinates itself. -/
theorem Agrees.sampleRequest {i : Instr} {l l' : Lane} {lanes lanes' : List Lane}
    (hl : Agrees i l l') (sampler : ResourceRef) (at_ : SampleOperands)
    (h : at_.gradients = .implicit → SameGroup i l l' lanes lanes') (r : SampleRequest) :
    l'.sampleRequest lanes' i sampler at_ r = l.sampleRequest lanes i sampler at_ r := by
  have hgradients : ∀ ddx ddy,
      l'.gradients lanes' i at_.gradients ((i.args.drop 2).take at_.coords) ddx ddy =
        l.gradients lanes i at_.gradients ((i.args.drop 2).take at_.coords) ddx ddy := by
    intro ddx ddy
    unfold gradients
    split
    · rfl
    · next himplicit =>
        have h := h himplicit
        unfold isPixelQuad
        rw [h.length, hl.stage, h.coordinateDerivatives _ _ _ fun o ho =>
          List.mem_of_mem_drop (List.mem_of_mem_take ho)]
    · exact hl.givenGradients _ _ _ _ _
  unfold Lane.sampleRequest
  simp only [hl.singlesInto, hl.texelOffsets, hl.gatherChannel, hl.optionalSingle, hgradients]

end Lane

end Lockstep
