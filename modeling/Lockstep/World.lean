import Lockstep.Host.Basic
import Lockstep.Memory

set_option autoImplicit false

/-! # What the lanes share

`Bindings` is what the host sets up before a session: builtin values, constant blocks, and the
variables that stand for resources. `World` is what the lanes change together: the memory of global
variables, the snapshots of resources, and the requests made to the host. A snapshot is fetched when
a slot is touched for the first time, and kept. -/

namespace Lockstep

/-- A constant block and its content. -/
structure ConstantBlock where
  handle : Variable
  data : Bytes
deriving Repr, Inhabited

/-- A global variable of a session. -/
structure GlobalVar where
  id : Id
  value : Variable
deriving Repr, Inhabited

/-- What is set up for a session and does not change. -/
structure Bindings where
  /-- The builtin values that all lanes share. -/
  builtins : Table Builtin Variable := .empty
  constantBlocks : List ConstantBlock := []
  readOnly : List Variable := []
  readWrite : List Variable := []
  samplers : List Variable := []
  globals : List GlobalVar := []
deriving Inhabited

namespace Bindings

/-- Set a builtin value. -/
def setBuiltin (b : Bindings) (builtin : Builtin) (v : Variable) : Bindings :=
  { b with builtins := b.builtins.insert builtin v }

/-- Add a constant block with its content. -/
def addConstantBlock (b : Bindings) (name : String) (slot : Slot) (data : Bytes) : Bindings :=
  let block : ConstantBlock := { handle := .handle name .constantBlock slot, data }
  { b with constantBlocks := b.constantBlocks ++ [block] }

/-- Add a variable for a read-only resource. -/
def addReadOnly (b : Bindings) (name : String) (slot : Slot) : Bindings :=
  { b with readOnly := b.readOnly ++ [.handle name .readOnlyResource slot] }

/-- Add a variable for a read-write resource. -/
def addReadWrite (b : Bindings) (name : String) (slot : Slot) : Bindings :=
  { b with readWrite := b.readWrite ++ [.handle name .readWriteResource slot] }

/-- Add a variable for a sampler. -/
def addSampler (b : Bindings) (name : String) (slot : Slot) : Bindings :=
  { b with samplers := b.samplers ++ [.handle name .sampler slot] }

/-- Add a global variable. -/
def addGlobal (b : Bindings) (id : Id) (value : Variable) : Bindings :=
  { b with globals := b.globals ++ [{ id, value }] }

/-- The constant block bound to a slot. -/
def constantBlock? (b : Bindings) (slot : Slot) : Option ConstantBlock :=
  b.constantBlocks.find? fun c => c.handle.slot == some slot

/-- The global variable of an identifier. -/
def global? (b : Bindings) (id : Id) : Option GlobalVar := b.globals.find? (·.id == id)

/-- The variable of a resource with a name, of any class. -/
def resource? (b : Bindings) (name : String) : Option Variable :=
  (b.readOnly ++ b.readWrite ++ b.samplers ++ b.constantBlocks.map (·.handle)).find?
    (·.name == name)

end Bindings

/-! ## Shared state -/

/-- What all lanes change. -/
structure World where
  /-- The memory of global variables. -/
  memory : Memory := {}
  /-- The snapshots of read-only resources. -/
  srvs : Table Slot Snapshot := .empty
  /-- The snapshots of read-write resources. -/
  uavs : Table Slot Snapshot := .empty
  /-- The requests made to the host. -/
  log : HostLog := #[]
deriving Inhabited

namespace World

/-- Make a request. -/
def ask (host : Host) (w : World) (r : HostRequest) : r.Answer × World :=
  (host.answer w.log r, { w with log := w.log.push r })

/-- Put a read-only snapshot in place before it is fetched. -/
def setSrv (w : World) (slot : Slot) (s : Snapshot) : World :=
  { w with srvs := w.srvs.insert slot s }

/-- Put a read-write snapshot in place. -/
def setUav (w : World) (slot : Slot) (s : Snapshot) : World :=
  { w with uavs := w.uavs.insert slot s }

/-- The snapshot of a read-only resource, which is fetched unless it is there. -/
def srv (host : Host) (w : World) (slot : Slot) : Snapshot × World :=
  match w.srvs.get? slot with
  | some s => (s, w)
  | none =>
    let (fetched, w) := w.ask host (.fetchSrv slot)
    let s : Snapshot := Option.getD fetched {}
    (s, w.setSrv slot s)

/-- The snapshot of a read-write resource, which is fetched unless it is there. -/
def uav (host : Host) (w : World) (slot : Slot) : Snapshot × World :=
  match w.uavs.get? slot with
  | some s => (s, w)
  | none =>
    let (fetched, w) := w.ask host (.fetchUav slot)
    let s : Snapshot := Option.getD fetched {}
    (s, w.setUav slot s)

end World

end Lockstep
