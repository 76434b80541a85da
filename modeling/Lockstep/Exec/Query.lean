import Lockstep.Exec.Handle

set_option autoImplicit false

/-! # Facts about resources

Dimensions, sample counts and sample positions. The counts come from the host; the positions within
a pixel are the standard patterns, in sixteenths of a pixel from its centre. -/

namespace Lockstep

/-- The standard pattern of a sample count, in sixteenths of a pixel. -/
def samplePattern : Nat → List (Int × Int)
  | 2 => [(4, 4), (-4, -4)]
  | 4 => [(-2, -6), (6, -2), (-6, 2), (2, 6)]
  | 8 => [(1, -3), (-1, 3), (5, 1), (-3, -5), (-5, 5), (-7, -1), (3, 7), (7, -7)]
  | 16 => [(1, 1), (-1, -3), (-3, 2), (4, -1), (-5, -2), (2, 5), (5, 3), (3, -5), (-2, 6), (0, -7),
      (-4, -6), (-6, 4), (-8, 0), (7, -4), (6, 7), (-7, -8)]
  | _ => []

/-- The position of a sample in a pattern; the centre for a sample or a count without a pattern. -/
def samplePosition (index count : Nat) : Int × Int := (samplePattern count)[index]?.getD (0, 0)

/-- A number of sixteenths in single precision. -/
def sixteenths (n : Int) : UInt64 :=
  FloatFormat.single.div (FloatFormat.single.ofInt n) (FloatFormat.single.ofInt 16)

/-- The position of a sample as a value. -/
def samplePositionValue (name : String) (index count : UInt32) : Variable :=
  let p := samplePosition index.toNat count.toNat
  .ofWords name .float [sixteenths p.1, sixteenths p.2]

namespace Step

/-- The sample count of the render target. -/
def renderTargetCount (s : Setting) (i : Instr) (op : Intrinsic) : Step Effect := do
  let (id, result) ← i.blank
  let info : Variable ← ask s (.renderTargetInfo (← lane).stage op)
  return .value id (result.set 0 (info.get 0))

/-- The position of a sample of the render target. -/
def renderTargetPosition (s : Setting) (i : Instr) (op : Intrinsic) : Step Effect := do
  let id ← i.resultId
  let info : Variable ← ask s (.renderTargetInfo (← lane).stage op)
  let index ← argWord32 i 0
  return .value id (samplePositionValue (i.resultName id) index (info.word32 0))

/-- The position of a sample of a texture. -/
def texturePosition (s : Setting) (i : Instr) (op : Intrinsic) (h : Handle) : Step Effect := do
  let id ← i.resultId
  let info : Variable ← ask s (.sampleInfo h.ref.cls h.ref.slot (← lane).stage op)
  let index ← argWord32 i 1
  return .value id (samplePositionValue (i.resultName id) index (info.word32 0))

/-- The dimensions of a resource. -/
def dimensions (s : Setting) (i : Instr) (h : Handle) : Step Effect := do
  let id ← i.resultId
  let mip ← (← lane).argWord32OrZero i 1
  let dims : Variable ← ask s (.resourceInfo h.ref.cls h.ref.slot mip (← lane).stage)
  return .value id ((Variable.row (i.resultName id) .sInt 4).fill dims.get)

end Step

end Lockstep
