import Lockstep.Exec.Vector
import Lockstep.Exec.Branch
import Lockstep.Exec.Pointer
import Lockstep.Exec.Math
import Lockstep.Exec.Signature
import Lockstep.Exec.Buffer
import Lockstep.Exec.Sample
import Lockstep.Exec.Query

set_option autoImplicit false

/-! # What each instruction does

The families of instructions are brought together: `Step.instruction` gives the outcome of any
instruction, `Step.compute` the effect of one that does not end its block, and `Step.intrinsic` that
of a call of an intrinsic. -/

namespace Lockstep

namespace Step

/-- A function that the host evaluates for all components of an operand. -/
def transcendental (s : Setting) (i : Instr) (op : Intrinsic) : Step Effect := do
  let (id, result) ← i.blank
  let input ← arg i 0
  let answered : Except Fault Variable ← ask s (.math op input)
  let answer ← answered
  return .value id (result.fill answer.get)

/-- An intrinsic on the resource whose handle is its first operand. -/
def onHandle (s : Setting) (i : Instr) (op : Intrinsic) : Step Effect := do
  let h ← handle s (← i.argId 0)
  match op with
  | .getDimensions => dimensions s i h
  | .texture2DMSGetSamplePosition => texturePosition s i op h
  | .textureLoad => if h.ref.cls = .srv then texture s i op h else loadElement s i op h
  | .bufferLoad | .rawBufferLoad => loadElement s i op h
  | .bufferStore | .rawBufferStore | .textureStore => storeElement s i op h
  | .atomicBinOp | .atomicCompareExchange => updateElement s i op h
  | _ => texture s i op h

/-- An intrinsic that changes the lane, looks at other lanes or reaches a resource. -/
def effect (s : Setting) (i : Instr) (op : Intrinsic) : Step Effect := do
  let l ← lane
  match op with
  | .loadInput => return ← l.loadInput i
  | .storeOutput => return ← l.storeOutput i s.recording
  | .barrier => return ← l.barrier (s.groupWith l) i
  | .discard => return ← l.discard i
  | .createHandle | .createHandleFromBinding => return ← l.createHandle s i op
  | .createHandleFromHeap => createHandleFromHeap s i
  | .annotateHandle => annotateHandle i
  | .cBufferLoadLegacy => loadConstants s i
  | .renderTargetGetSampleCount => renderTargetCount s i op
  | .renderTargetGetSamplePosition => renderTargetPosition s i op
  | .bufferLoad | .bufferStore | .rawBufferLoad | .rawBufferStore | .textureLoad | .textureStore
  | .getDimensions | .texture2DMSGetSamplePosition | .sample | .sampleBias | .sampleLevel
  | .sampleGrad | .sampleCmp | .sampleCmpLevelZero | .sampleCmpLevel | .sampleCmpGrad
  | .sampleCmpBias | .textureGather | .textureGatherCmp | .calculateLOD | .atomicBinOp
  | .atomicCompareExchange => onHandle s i op
  | _ => throw (.unsupportedIntrinsic op)

/-- A call of an intrinsic. -/
def intrinsic (s : Setting) (i : Instr) (op : Intrinsic) : Step Effect := do
  let l ← lane
  if op.isTranscendental then transcendental s i op
  else
    match l.math? i op, op.builtin?, op.derivative? with
    | some effect, _, _ => return ← effect
    | none, some builtin, _ => return ← l.readBuiltin s.bindings i op builtin
    | none, none, some (axis, fine) => return ← l.derivativeOf (s.groupWith l) i op axis fine
    | none, none, none => effect s i op

/-- A call: of an intrinsic, or of a marker, which does nothing. Functions cannot be called. -/
def call (s : Setting) (i : Instr) : Step Effect :=
  match i.callee with
  | some (.intrinsic op) => intrinsic s i op
  | some .marker => return .proceed
  | some (.inert _) => return .proceed
  | some (.function _) => throw (.unsupportedOpcode i.op)
  | none => throw (.unsupportedOpcode i.op)

/-- The effect of an instruction that does not end its block. -/
def compute (s : Setting) (i : Instr) : Step Effect := do
  let l ← lane
  match i.op with
  | .noOp | .fence => return .proceed
  | .call => call s i
  | .phi => return ← l.phi i
  | .select => return ← l.select i
  | .add | .sub | .mul | .uDiv | .sDiv | .uRem | .sRem | .and | .or | .xor | .shiftLeft
  | .logicalShiftRight | .arithShiftRight | .fAdd | .fSub | .fMul | .fDiv | .fRem =>
    return ← l.arithmetic i
  | .fOrdFalse | .fOrdEqual | .fOrdGreater | .fOrdGreaterEqual | .fOrdLess | .fOrdLessEqual
  | .fOrdNotEqual | .fOrd | .fUnord | .fUnordEqual | .fUnordGreater | .fUnordGreaterEqual
  | .fUnordLess | .fUnordLessEqual | .fUnordNotEqual | .fOrdTrue | .iEqual | .iNotEqual
  | .uGreater | .uGreaterEqual | .uLess | .uLessEqual | .sGreater | .sGreaterEqual | .sLess
  | .sLessEqual => return ← l.compare i
  | .trunc | .zExt | .sExt | .fToU | .fToS | .uToF | .sToF | .fpTrunc | .fpExt | .ptrToI
  | .iToPtr | .bitcast => return ← l.cast i
  | .extractVal | .extractElement | .insertElement | .shuffleVector => return ← l.vector i
  | .alloca | .load | .loadAtomic | .store | .storeAtomic | .getElementPtr | .atomicExchange
  | .atomicAdd | .atomicSub | .atomicAnd | .atomicNand | .atomicOr | .atomicXor | .atomicMax
  | .atomicMin | .atomicUMax | .atomicUMin => memory i
  | .insertValue | .compareExchange | .addrSpaceCast | .ret | .br | .switch | .unreachable =>
    throw (.unsupportedOpcode i.op)

/-- The outcome of an instruction. -/
def instruction (s : Setting) (i : Instr) : Step Outcome := do
  if i.isTerminator then return ← (← lane).terminate i
  else return .effect (← compute s i)

end Step

end Lockstep
