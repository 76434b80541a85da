import Lockstep.Exec.Handle
import Lockstep.Exec.Quad

set_option autoImplicit false

/-! # Filtered texture operations

Sampling, gathering and loads from read-only textures are the host's work. What this file does is to
collect the request: the resource, the sampler, the coordinates and their derivatives, and the
operands that only some of the operations have. -/

namespace Lockstep

/-- How an operation gets the derivatives of its coordinates. -/
inductive Gradients
  | absent
  /-- From the lanes of the quad. -/
  | implicit
  /-- From the operands, which begin at a number: three for each direction. -/
  | given (start : Nat)
deriving DecidableEq, Repr, Inhabited

/-- Where an operation with a sampler has its operands. The coordinates begin at the third operand,
    the offsets at the seventh. -/
structure SampleOperands where
  coords : Nat := 4
  offsets : Nat := 3
  channel : Option Nat := none
  compareTo : Option Nat := none
  bias : Option Nat := none
  lod : Option Nat := none
  gradients : Gradients := .absent
deriving DecidableEq, Repr, Inhabited

namespace Intrinsic

/-- The operands of an operation with a sampler. -/
def sampleOperands? : Intrinsic → Option SampleOperands
  | .sample => some { gradients := .implicit }
  | .sampleBias => some { bias := some 9, gradients := .implicit }
  | .sampleLevel => some { lod := some 9 }
  | .sampleGrad => some { gradients := .given 9 }
  | .sampleCmp => some { compareTo := some 9 }
  | .sampleCmpLevelZero => some { compareTo := some 9 }
  | .sampleCmpLevel => some { compareTo := some 9, lod := some 10 }
  | .sampleCmpGrad => some { compareTo := some 9, gradients := .given 10 }
  | .sampleCmpBias => some { compareTo := some 9, bias := some 10 }
  | .textureGather => some { offsets := 2, channel := some 8 }
  | .textureGatherCmp => some { offsets := 2, channel := some 8, compareTo := some 9 }
  | .calculateLOD => some { coords := 3, offsets := 0, gradients := .implicit }
  | _ => none

end Intrinsic

namespace Instr

/-- The result of a texture operation before it is known: the values of a load without its status,
    or for a level of detail the zero of the type. -/
def sampleResult (i : Instr) (op : Intrinsic) (id : Id) : Except Fault Variable :=
  if op = .calculateLOD then .ok (.zeroed (i.resultName id) i.ty)
  else
    match i.ty.structMembers? with
    | some (first :: _ :: rest) =>
      .ok (.row (i.resultName id) first.elem (min (rest.length + 1) 4).toUInt8)
    | _ => .error (.program (.resultNotStruct op))

end Instr

namespace Lane

/-- The request of an operation before its operands are read. -/
def blankRequest (l : Lane) (op : Intrinsic) (ref : ResourceRef) : SampleRequest :=
  { op
    resource := { shape := ref.shape, slot := ref.slot }
    sampler := none
    uv := .row "uv" .float 4
    ddx := .row "ddx" .float 4
    ddy := .row "ddy" .float 4
    texelOffsets := [0, 0, 0]
    multisampleIndex := 0
    lod := 0
    compareTo := 0
    swizzle := [0, 1, 2, 3]
    channel := .red
    stage := l.stage
    instr := l.instr - 1 }

/-- A single-precision operand where the operation has one, else zero. -/
def optionalSingle (l : Lane) (i : Instr) : Option Nat → Except Fault UInt64
  | none => .ok 0
  | some index => l.argSingleOrZero i index

/-- Put operands into components of a value, those numbered from `c` on, `count` of them. An operand
    that is absent leaves its component as it is. -/
def singlesInto (l : Lane) (i : Instr) (start : Nat) (v : Variable) :
    (c count : Nat) → Except Fault Variable
  | _, 0 => .ok v
  | c, n + 1 => do
    if i.hasArg (start + c) then
      l.singlesInto i start (v.set c (← l.argSingle i (start + c))) (c + 1) n
    else l.singlesInto i start v (c + 1) n

/-- An offset in texels, zero when the operand is absent. -/
def texelOffset (l : Lane) (i : Instr) (index : Nat) : Except Fault Int8 :=
  if i.hasArg index then (l.arg i index).map fun v => (v.intComp 0).toInt8 else .ok 0

/-- The offsets of an operation with a sampler, always three. -/
def texelOffsets (l : Lane) (i : Instr) (count : Nat) : Except Fault (List Int8) := do
  let given ← (List.range count).mapM fun c => l.texelOffset i (6 + c)
  return given ++ List.replicate (3 - count) 0

/-- The channel of a gather. -/
def gatherChannel (l : Lane) (i : Instr) : Option Nat → Except Fault GatherChannel
  | none => .ok .red
  | some index => (l.argNat i index).map .ofNumber

/-- The gradients that are given for coordinates numbered from `c` on; those of a coordinate that is
    no identifier are not read. -/
def givenGradients (l : Lane) (i : Instr) (start : Nat) (ddx ddy : Variable) :
    (c : Nat) → List Operand → Except Fault (Variable × Variable)
  | _, [] => .ok (ddx, ddy)
  | c, o :: rest => do
    if o.id?.isNone then l.givenGradients i start ddx ddy (c + 1) rest
    else
      let dx ← l.argSingleOrZero i (start + c)
      let dy ← l.argSingleOrZero i (start + 3 + c)
      l.givenGradients i start (ddx.set c dx) (ddy.set c dy) (c + 1) rest

/-- The derivatives of the coordinates. -/
def gradients (l : Lane) (lanes : List Lane) (i : Instr) (g : Gradients) (coords : List Operand)
    (ddx ddy : Variable) : Except Fault (Variable × Variable) :=
  match g with
  | .absent => .ok (ddx, ddy)
  | .implicit =>
    if isPixelQuad l.stage lanes then l.coordinateDerivatives lanes ddx ddy 0 coords
    else .ok (ddx, ddy)
  | .given start => l.givenGradients i start ddx ddy 0 (coords.take 3)

/-- Complete the request of an operation with a sampler. -/
def sampleRequest (l : Lane) (lanes : List Lane) (i : Instr) (sampler : ResourceRef)
    (at_ : SampleOperands) (r : SampleRequest) : Except Fault SampleRequest := do
  let uv ← l.singlesInto i 2 r.uv 0 at_.coords
  let texelOffsets ← l.texelOffsets i at_.offsets
  let channel ← l.gatherChannel i at_.channel
  let compareTo ← l.optionalSingle i at_.compareTo
  let bias ← l.optionalSingle i at_.bias
  let lod ← l.optionalSingle i at_.lod
  let coords := (i.args.drop 2).take at_.coords
  let (ddx, ddy) ← l.gradients lanes i at_.gradients coords r.ddx r.ddy
  return { r with
    uv, texelOffsets, channel, compareTo, lod, ddx, ddy
    sampler := some { mode := sampler.samplerMode, bias, slot := sampler.slot } }

/-- The level or the sample of a texture load, which the kind of the texture decides. -/
def loadLevel (l : Lane) (i : Instr) (kind : ResourceKind) (r : SampleRequest) :
    Except Fault SampleRequest := do
  if !i.hasArg 1 then return r
  let level ← l.argWord32 i 1
  match kind with
  | .texture1D => return { r with uv := r.uv.set 2 level.toUInt64 }
  | .texture2D | .texture3D => return { r with uv := r.uv.set 3 level.toUInt64 }
  | .texture2DMS | .texture2DMSArray => return { r with multisampleIndex := level.toInt32 }
  | _ => return r

/-- The coordinates and offsets of a texture load, those numbered from `c` on, `count` of them. -/
def loadCoords (l : Lane) (i : Instr) (r : SampleRequest) :
    (c count : Nat) → Except Fault SampleRequest
  | _, 0 => .ok r
  | c, n + 1 => do
    let uv ← if i.hasArg (2 + c) then
        (l.argWord32 i (2 + c)).map fun w => r.uv.set c w.toUInt64
      else pure r.uv
    let offset ← l.texelOffset i (5 + c)
    l.loadCoords i { r with uv, texelOffsets := r.texelOffsets.set c offset } (c + 1) n

/-- Complete the request of a texture load, whose coordinates are integers. -/
def loadRequest (l : Lane) (i : Instr) (r : SampleRequest) : Except Fault SampleRequest := do
  let r ← l.loadLevel i r.resource.shape.kind { r with uv := { r.uv with elem := .sInt } }
  l.loadCoords i r 0 3

/-- Of the two levels of detail that the host gives, the one that is not clamped if the operand says
    so. -/
def chooseLod (l : Lane) (i : Instr) (op : Intrinsic) (answer result : Variable) :
    Except Fault Variable := do
  if op = .calculateLOD ∧ i.hasArg 5 then
    if (← l.argWord32 i 5) = 0 then return result.set 0 (answer.get 1)
  return result

end Lane

namespace Step

/-- The request of a texture operation. -/
def textureRequest (s : Setting) (i : Instr) (op : Intrinsic) (ref : ResourceRef) :
    Step SampleRequest := do
  let blank := (← lane).blankRequest op ref
  match op.sampleOperands? with
  | none => return ← (← lane).loadRequest i blank
  | some at_ =>
    let sampler ← handle s (← i.argId 1)
    if sampler.ref.cls ≠ .sampler then throw (.type (.noSampler op))
    let l ← lane
    return ← l.sampleRequest (s.groupWith l) i sampler.ref at_ blank

/-- A texture operation that the host carries out. -/
def texture (s : Setting) (i : Instr) (op : Intrinsic) (h : Handle) : Step Effect := do
  let id ← i.resultId
  if h.ref.cls ≠ .srv then throw (.type (.notReadOnly op))
  let result ← i.sampleResult op id
  let request ← textureRequest s i op h.ref
  let answered : Except Fault Variable ← ask s (.sample request)
  let answer ← answered
  let v ← (← lane).chooseLod i op answer (result.fill answer.get)
  raise .sampled
  return .value id v

end Step

end Lockstep
