import Lockstep.Host.Basic

set_option autoImplicit false

/-! # A host with nothing bound

Every resource is unbound and filtered operations fail. Transcendental functions are computed in
double precision and rounded to single, which is the correctly rounded result except next to a
tie. -/

namespace Lockstep

open FloatFormat (single double)

/-- A function of machine doubles as a function of single-precision patterns. -/
def onSingle (fn : Float → Float) (bits : UInt64) : UInt64 :=
  let result := fn (Float.ofBits (FloatFormat.convert single double bits))
  FloatFormat.convert double single result.toBits

namespace Intrinsic

/-- The function of a transcendental intrinsic; exponential and logarithm are to base two. -/
def transcendental? : Intrinsic → Option (UInt64 → UInt64)
  | .cos => some (onSingle Float.cos)
  | .sin => some (onSingle Float.sin)
  | .tan => some (onSingle Float.tan)
  | .acos => some (onSingle Float.acos)
  | .asin => some (onSingle Float.asin)
  | .atan => some (onSingle Float.atan)
  | .hcos => some (onSingle Float.cosh)
  | .hsin => some (onSingle Float.sinh)
  | .htan => some (onSingle Float.tanh)
  | .exp => some (onSingle Float.exp2)
  | .log => some (onSingle Float.log2)
  | .sqrt => some (onSingle Float.sqrt)
  | .rsqrt => some fun x => single.div Normalized.one (onSingle Float.sqrt x)
  | _ => none

/-- Apply a transcendental intrinsic to every component. -/
def evaluate (op : Intrinsic) (input : Variable) : Except Fault Variable :=
  match op.transcendental? with
  | none => .error (.host ("no math intrinsic " ++ nameOf op))
  | some fn =>
    .ok { input.fill fun c => fn (input.elem.toSingle (input.get c)) with elem := .float }

end Intrinsic

namespace Host

/-- The host's word that a filtered operation cannot be made. -/
def cannotSample (op : Intrinsic) : Fault := .host (nameOf op ++ " needs a GPU")

/-- The host with nothing bound. -/
def unbound : Host where
  answer _ r := match r with
    | .fetchSrv _ => none
    | .fetchUav _ => none
    | .math op input => op.evaluate input
    | .sample request => .error (cannotSample request.op)
    | .resourceInfo .. => .ofWords "" .uInt [0, 0, 0, 0]
    | .sampleInfo .. => .ofWords "" .uInt [1, 0, 0, 0]
    | .renderTargetInfo .. => .ofWords "" .uInt [1, 0, 0, 0]
    | .reference slot => { cls := .srv, slot }
    | .directAccess _ slot => { store := 0, byteOffset := slot.heapIndex, byteSize := 1 }

end Host

end Lockstep
