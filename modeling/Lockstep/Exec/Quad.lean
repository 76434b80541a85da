import Lockstep.Exec.Step
import Lockstep.Exec.Number

set_option autoImplicit false

/-! # Derivatives and barriers

The operations that look at other lanes. A pixel quad has its lanes in the order top left, top
right, bottom left, bottom right; a derivative is the difference of a value between two of them,
which all have to be at one place. -/

namespace Lockstep

/-- A direction on the screen. -/
inductive Axis
  | x | y
deriving DecidableEq, Repr, Inhabited

/-- The number of lanes of a quad. -/
def quadSize : Nat := 4

/-- The lanes whose values a derivative subtracts, the base first. A coarse derivative takes those
    of the top left lane, a fine one those of the lane's own row or column. -/
def quadPair (lane : Nat) (axis : Axis) (fine : Bool) : Nat × Nat :=
  match axis, fine with
  | .x, false => (0, 1)
  | .y, false => (0, 2)
  | .x, true => (lane - lane % 2, lane - lane % 2 + 1)
  | .y, true => (lane % 2, lane % 2 + 2)

namespace Intrinsic

/-- The direction of a derivative, and whether it is fine. -/
def derivative? : Intrinsic → Option (Axis × Bool)
  | .derivCoarseX => some (.x, false)
  | .derivCoarseY => some (.y, false)
  | .derivFineX => some (.x, true)
  | .derivFineY => some (.y, true)
  | _ => none

end Intrinsic

/-- Whether the lanes make up a pixel quad. -/
def isPixelQuad (stage : Stage) (lanes : List Lane) : Bool :=
  stage == .pixel && lanes.length == quadSize

/-- The value of an operand in one of the lanes, with subnormal components as zeros. -/
def valueIn (lanes : List Lane) (index : Nat) (o : Operand) : Except Fault Variable :=
  match lanes[index]? with
  | none => .error (.program (.quadLaneMissing index))
  | some l => l.operand o true

/-- The components of one value less those of another, in the shape of the latter. -/
def difference (base neighbour : Variable) : Except Fault Variable :=
  base.fillOr (.type (.derivativeOf base.elem)) fun c =>
    base.elem.floatOp? .sub (neighbour.get c) (base.get c)

namespace Lane

/-- The derivative of an operand, seen from a lane of the group. -/
def derivative (l : Lane) (lanes : List Lane) (o : Operand) (axis : Axis) (fine : Bool) :
    Except Fault Variable := do
  if lanes.length ≠ quadSize then throw (.program (.notAQuad quadSize lanes.length))
  if diverged lanes then throw (.diverged .derivative)
  let (base, neighbour) := quadPair l.index axis fine
  let a ← valueIn lanes base o
  let b ← valueIn lanes neighbour o
  difference a b

/-- A derivative as an instruction; outside of a pixel quad it is zero. -/
def derivativeOf (l : Lane) (lanes : List Lane) (i : Instr) (op : Intrinsic) (axis : Axis)
    (fine : Bool) : Except Fault Effect := do
  let (id, result) ← i.blank
  match i.args.head? with
  | none => throw (.program (.noOperand op))
  | some o =>
    if !isPixelQuad l.stage lanes then return .value id result
    return .value id ((← l.derivative lanes o axis fine).withName result.name)

/-- The coarse derivatives of coordinates numbered from `c` on, put into two values. A coordinate
    that is no identifier has none. -/
def coordinateDerivatives (l : Lane) (lanes : List Lane) (ddx ddy : Variable) :
    (c : Nat) → List Operand → Except Fault (Variable × Variable)
  | _, [] => .ok (ddx, ddy)
  | c, o :: rest => do
    if o.id?.isNone then l.coordinateDerivatives lanes ddx ddy (c + 1) rest
    else
      let dx ← l.derivative lanes o .x false
      let dy ← l.derivative lanes o .y false
      l.coordinateDerivatives lanes (ddx.set c (dx.elem.toSingle (dx.get 0)))
        (ddy.set c (dy.elem.toSingle (dy.get 0))) (c + 1) rest

/-- Wait for the group: the lanes have to be at one place when the barrier is one of threads. -/
def barrier (l : Lane) (lanes : List Lane) (i : Instr) : Except Fault Effect := do
  let mode ← l.argWord32 i 0
  if mode &&& 1 ≠ 0 ∧ diverged lanes then throw (.diverged .barrier)
  return .proceed

/-- Stop the lane on a condition. -/
def discard (l : Lane) (i : Instr) : Except Fault Effect :=
  (l.argWord32 i 0).map fun cond => if cond ≠ 0 then .kill else .proceed

end Lane

end Lockstep
