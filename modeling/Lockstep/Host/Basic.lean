import Lockstep.Program.Basic
import Lockstep.View.Window
import Lockstep.Fault

set_option autoImplicit false

/-! # The host

What the debugger cannot compute it asks of its host: the content of resources, filtered texture
operations, mathematics whose last bit differs between devices, and facts about bindings. A request
is a value, and the type of its answer depends on it. A host is a function of the requests made so
far and the present one, so a host with a state of its own is one, too. -/

namespace Lockstep

/-- The texture side of a filtered operation. -/
structure SampledResource where
  shape : ResourceShape
  slot : Slot
deriving Repr, Inhabited

/-- The sampler side of a filtered operation. -/
structure SampledSampler where
  mode : SamplerMode
  /-- Added to the level of detail. -/
  bias : UInt64
  slot : Slot
deriving Repr, Inhabited

/-- A filtered texture operation. -/
structure SampleRequest where
  op : Intrinsic
  resource : SampledResource
  /-- Absent for loads. -/
  sampler : Option SampledSampler
  /-- The coordinates: floats, or integers for loads. -/
  uv : Variable
  ddx : Variable
  ddy : Variable
  texelOffsets : List Int8
  multisampleIndex : Int32
  lod : UInt64
  compareTo : UInt64
  swizzle : List Nat
  channel : GatherChannel
  stage : Stage
  /-- The instruction's number within its function. -/
  instr : Nat
deriving Repr, Inhabited

/-- A request to the host. -/
inductive HostRequest
  | fetchSrv (slot : Slot)
  | fetchUav (slot : Slot)
  | math (op : Intrinsic) (input : Variable)
  | sample (request : SampleRequest)
  | resourceInfo (cls : ResourceClass) (slot : Slot) (mip : UInt32) (stage : Stage)
  | sampleInfo (cls : ResourceClass) (slot : Slot) (stage : Stage) (op : Intrinsic)
  | renderTargetInfo (stage : Stage) (op : Intrinsic)
  | reference (slot : Slot)
  | directAccess (category : DescriptorCategory) (slot : Slot)
deriving Repr

/-- The type of the answer to a request. No snapshot means that nothing is bound; infos are values
    whose components count. -/
def HostRequest.Answer : HostRequest → Type
  | fetchSrv _ => Option Snapshot
  | fetchUav _ => Option Snapshot
  | math .. => Except Fault Variable
  | sample _ => Except Fault Variable
  | resourceInfo .. => Variable
  | sampleInfo .. => Variable
  | renderTargetInfo .. => Variable
  | reference _ => ResourceRef
  | directAccess .. => DirectAccess

/-- The requests made so far, in order. -/
abbrev HostLog := Array HostRequest

/-- What answers the requests. -/
structure Host where
  answer : HostLog → (r : HostRequest) → r.Answer

/-- The numbers of requests for read-only and for read-write snapshots. -/
def HostLog.fetches (log : HostLog) : Nat × Nat :=
  log.foldl (fun n r => match r with
    | .fetchSrv _ => (n.1 + 1, n.2)
    | .fetchUav _ => (n.1, n.2 + 1)
    | _ => n) (0, 0)

end Lockstep
