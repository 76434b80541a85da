import Lockstep.Named

set_option autoImplicit false

/-! # Shader intrinsics

The functions that a program calls by number instead of by definition: mathematics, signature input
and output, resources, derivatives and lane control. -/

namespace Lockstep

/-- A function of the shader model. -/
inductive Intrinsic
  | loadInput | storeOutput
  | fAbs | saturate | isNaN | isInf | isFinite | isNormal | cos | sin | tan | acos | asin | atan
  | hcos | hsin | htan | exp | frc | log | sqrt | rsqrt | roundNe | roundNi | roundPi | roundZ
  | bfrev | countbits | firstbitLo | firstbitHi | firstbitSHi
  | fMax | fMin | iMax | iMin | uMax | uMin | iMul | uMul | uDiv | uAddc | uSubb | fMad | fma
  | iMad | uMad | msad | ibfe | ubfe | bfi | dot2 | dot3 | dot4
  | createHandle | createHandleFromBinding | createHandleFromHeap | annotateHandle | cBufferLoad
  | cBufferLoadLegacy | sample | sampleBias | sampleLevel | sampleGrad | sampleCmp
  | sampleCmpLevelZero | sampleCmpLevel | sampleCmpGrad | sampleCmpBias | textureLoad
  | textureStore | bufferLoad | bufferStore | bufferUpdateCounter | checkAccessFullyMapped
  | getDimensions | textureGather | textureGatherCmp | texture2DMSGetSamplePosition
  | renderTargetGetSamplePosition | renderTargetGetSampleCount | atomicBinOp
  | atomicCompareExchange | rawBufferLoad | rawBufferStore
  | barrier | calculateLOD | discard | derivCoarseX | derivCoarseY | derivFineX | derivFineY
  | evalSnapped | evalSampleIndex | evalCentroid | sampleIndex | coverage | innerCoverage
  | threadId | groupId | threadIdInGroup | flattenedThreadIdInGroup
  | emitStream | cutStream | emitThenCutStream | gsInstanceID
  | makeDouble | splitDouble | legacyF32ToF16 | legacyF16ToF32
  | waveIsFirstLane | waveGetLaneIndex | waveGetLaneCount | waveAnyTrue | waveAllTrue
  | waveActiveAllEqual | waveActiveBallot | waveReadLaneAt | waveReadLaneFirst | waveActiveOp
  | waveActiveBit | wavePrefixOp | quadReadLaneAt | quadOp
  | primitiveID | viewID | instanceID | traceRay
deriving DecidableEq, Repr, Inhabited

instance : Named Intrinsic where
  listing := [
    (.loadInput, "LoadInput"), (.storeOutput, "StoreOutput"), (.fAbs, "FAbs"),
    (.saturate, "Saturate"), (.isNaN, "IsNaN"), (.isInf, "IsInf"), (.isFinite, "IsFinite"),
    (.isNormal, "IsNormal"), (.cos, "Cos"), (.sin, "Sin"), (.tan, "Tan"), (.acos, "Acos"),
    (.asin, "Asin"), (.atan, "Atan"), (.hcos, "Hcos"), (.hsin, "Hsin"), (.htan, "Htan"),
    (.exp, "Exp"), (.frc, "Frc"), (.log, "Log"), (.sqrt, "Sqrt"), (.rsqrt, "Rsqrt"),
    (.roundNe, "Round_ne"), (.roundNi, "Round_ni"), (.roundPi, "Round_pi"), (.roundZ, "Round_z"),
    (.bfrev, "Bfrev"), (.countbits, "Countbits"), (.firstbitLo, "FirstbitLo"),
    (.firstbitHi, "FirstbitHi"), (.firstbitSHi, "FirstbitSHi"), (.fMax, "FMax"), (.fMin, "FMin"),
    (.iMax, "IMax"), (.iMin, "IMin"), (.uMax, "UMax"), (.uMin, "UMin"), (.iMul, "IMul"),
    (.uMul, "UMul"), (.uDiv, "UDiv"), (.uAddc, "UAddc"), (.uSubb, "USubb"), (.fMad, "FMad"),
    (.fma, "Fma"), (.iMad, "IMad"), (.uMad, "UMad"), (.msad, "Msad"), (.ibfe, "Ibfe"),
    (.ubfe, "Ubfe"), (.bfi, "Bfi"), (.dot2, "Dot2"), (.dot3, "Dot3"), (.dot4, "Dot4"),
    (.createHandle, "CreateHandle"), (.createHandleFromBinding, "CreateHandleFromBinding"),
    (.createHandleFromHeap, "CreateHandleFromHeap"), (.annotateHandle, "AnnotateHandle"),
    (.cBufferLoad, "CBufferLoad"), (.cBufferLoadLegacy, "CBufferLoadLegacy"), (.sample, "Sample"),
    (.sampleBias, "SampleBias"), (.sampleLevel, "SampleLevel"), (.sampleGrad, "SampleGrad"),
    (.sampleCmp, "SampleCmp"), (.sampleCmpLevelZero, "SampleCmpLevelZero"),
    (.sampleCmpLevel, "SampleCmpLevel"), (.sampleCmpGrad, "SampleCmpGrad"),
    (.sampleCmpBias, "SampleCmpBias"), (.textureLoad, "TextureLoad"),
    (.textureStore, "TextureStore"), (.bufferLoad, "BufferLoad"), (.bufferStore, "BufferStore"),
    (.bufferUpdateCounter, "BufferUpdateCounter"),
    (.checkAccessFullyMapped, "CheckAccessFullyMapped"), (.getDimensions, "GetDimensions"),
    (.textureGather, "TextureGather"), (.textureGatherCmp, "TextureGatherCmp"),
    (.texture2DMSGetSamplePosition, "Texture2DMSGetSamplePosition"),
    (.renderTargetGetSamplePosition, "RenderTargetGetSamplePosition"),
    (.renderTargetGetSampleCount, "RenderTargetGetSampleCount"), (.atomicBinOp, "AtomicBinOp"),
    (.atomicCompareExchange, "AtomicCompareExchange"), (.rawBufferLoad, "RawBufferLoad"),
    (.rawBufferStore, "RawBufferStore"), (.barrier, "Barrier"), (.calculateLOD, "CalculateLOD"),
    (.discard, "Discard"), (.derivCoarseX, "DerivCoarseX"), (.derivCoarseY, "DerivCoarseY"),
    (.derivFineX, "DerivFineX"), (.derivFineY, "DerivFineY"), (.evalSnapped, "EvalSnapped"),
    (.evalSampleIndex, "EvalSampleIndex"), (.evalCentroid, "EvalCentroid"),
    (.sampleIndex, "SampleIndex"), (.coverage, "Coverage"), (.innerCoverage, "InnerCoverage"),
    (.threadId, "ThreadId"), (.groupId, "GroupId"), (.threadIdInGroup, "ThreadIdInGroup"),
    (.flattenedThreadIdInGroup, "FlattenedThreadIdInGroup"), (.emitStream, "EmitStream"),
    (.cutStream, "CutStream"), (.emitThenCutStream, "EmitThenCutStream"),
    (.gsInstanceID, "GSInstanceID"), (.makeDouble, "MakeDouble"), (.splitDouble, "SplitDouble"),
    (.legacyF32ToF16, "LegacyF32ToF16"), (.legacyF16ToF32, "LegacyF16ToF32"),
    (.waveIsFirstLane, "WaveIsFirstLane"), (.waveGetLaneIndex, "WaveGetLaneIndex"),
    (.waveGetLaneCount, "WaveGetLaneCount"), (.waveAnyTrue, "WaveAnyTrue"),
    (.waveAllTrue, "WaveAllTrue"), (.waveActiveAllEqual, "WaveActiveAllEqual"),
    (.waveActiveBallot, "WaveActiveBallot"), (.waveReadLaneAt, "WaveReadLaneAt"),
    (.waveReadLaneFirst, "WaveReadLaneFirst"), (.waveActiveOp, "WaveActiveOp"),
    (.waveActiveBit, "WaveActiveBit"), (.wavePrefixOp, "WavePrefixOp"),
    (.quadReadLaneAt, "QuadReadLaneAt"), (.quadOp, "QuadOp"), (.primitiveID, "PrimitiveID"),
    (.viewID, "ViewID"), (.instanceID, "InstanceID"), (.traceRay, "TraceRay")]

namespace Intrinsic

/-- Whether subnormal single-precision operands and results of the intrinsic count as zero. -/
def isFlushing : Intrinsic → Bool
  | .sample | .sampleBias | .sampleLevel | .sampleGrad | .sampleCmp | .sampleCmpBias
  | .sampleCmpLevel | .sampleCmpGrad | .sampleCmpLevelZero | .textureGather | .textureGatherCmp
  | .calculateLOD | .derivCoarseX | .derivCoarseY | .derivFineX | .derivFineY | .evalSampleIndex
  | .fAbs | .cos | .sin | .tan | .acos | .asin | .atan | .hcos | .hsin | .htan | .exp | .frc | .log
  | .sqrt | .rsqrt | .roundNe | .roundNi | .roundPi | .roundZ | .fMax | .fMin | .fMad | .fma
  | .dot2 | .dot3 | .dot4 => true
  | _ => false

/-- Whether the host evaluates the intrinsic, because its last bit differs between devices. -/
def isTranscendental : Intrinsic → Bool
  | .cos | .sin | .tan | .acos | .asin | .atan | .hcos | .hsin | .htan | .exp | .log | .sqrt
  | .rsqrt => true
  | _ => false

end Intrinsic

/-- What an atomic resource intrinsic combines the old value with, by its number. -/
inductive AtomicKind
  | add | and | or | xor | iMin | iMax | uMin | uMax | exchange
deriving DecidableEq, Repr, Inhabited

instance : Named AtomicKind where
  listing := [
    (.add, "Add"), (.and, "And"), (.or, "Or"), (.xor, "Xor"), (.iMin, "IMin"), (.iMax, "IMax"),
    (.uMin, "UMin"), (.uMax, "UMax"), (.exchange, "Exchange")]

/-- The atomic operation of a number. -/
def AtomicKind.ofNumber? : Nat → Option AtomicKind
  | 0 => some .add
  | 1 => some .and
  | 2 => some .or
  | 3 => some .xor
  | 4 => some .iMin
  | 5 => some .iMax
  | 6 => some .uMin
  | 7 => some .uMax
  | 8 => some .exchange
  | _ => none

end Lockstep
