import Lockstep.Exec.Operand

set_option autoImplicit false

/-! # Steps

An instruction that only computes is a function of its lane (`Except Fault Effect`). One that
reaches memory, resources or the host is a `Step`: it changes a `Machine`, which is the lane, what
all lanes share, and the report so far. What was done before a fault stays done, so the machine is
given in either case. -/

namespace Lockstep

/-- What a step reads and does not change. -/
structure Setting where
  program : Program
  bindings : Bindings
  analyses : Analyses
  host : Host
  /-- The lanes of the group as they are when the step begins, in order of their numbers. -/
  group : List Lane
  /-- Whether the lane is the one whose steps are reported. -/
  recording : Bool

/-- What a step works on. -/
structure Machine where
  lane : Lane
  world : World
  events : Events := .none
  /-- The changes so far, in order. -/
  changes : Array Change := #[]
deriving Inhabited

/-- A computation on a machine that may fail. -/
abbrev Step := ExceptT Fault (StateM Machine)

/-- The group with the stepping lane as it is now. -/
def Setting.groupWith (s : Setting) (l : Lane) : List Lane := s.group.set l.index l

namespace Step

/-- The lane. -/
def lane : Step Lane := return (← get).lane

/-- The memory of global variables. -/
def shared : Step Memory := return (← get).world.memory

/-- Change the lane. -/
def modifyLane (f : Lane → Lane) : Step Unit := modify fun m => { m with lane := f m.lane }

/-- Change what all lanes share. -/
def modifyWorld (f : World → World) : Step Unit := modify fun m => { m with world := f m.world }

/-- Report a change. -/
def note (c : Change) : Step Unit := modify fun m => { m with changes := m.changes.push c }

/-- Report events. -/
def raise (e : Events) : Step Unit := modify fun m => { m with events := m.events.union e }

/-- Run an action on what all lanes share. -/
def onWorld {α : Type} (f : World → α × World) : Step α :=
  modifyGet fun m =>
    let (a, world) := f m.world
    (a, { m with world })

/-- Make a request to the host. -/
def ask (s : Setting) (r : HostRequest) : Step r.Answer := onWorld fun w => w.ask s.host r

/-- The snapshot of a read-only resource. -/
def srv (s : Setting) (slot : Slot) : Step Snapshot := onWorld fun w => w.srv s.host slot

/-- The snapshot of a read-write resource. -/
def uav (s : Setting) (slot : Slot) : Step Snapshot := onWorld fun w => w.uav s.host slot

/-- Replace the snapshot of a read-write resource. -/
def setUav (slot : Slot) (snapshot : Snapshot) : Step Unit :=
  modifyWorld fun w => w.setUav slot snapshot

/-- The value of an instruction's operand. -/
def arg (i : Instr) (index : Nat) : Step Variable := do return ← (← lane).arg i index

/-- The low 32 bits of an operand's first component. -/
def argWord32 (i : Instr) (index : Nat) : Step UInt32 := do return ← (← lane).argWord32 i index

/-- Run the step: its result or its fault, and the machine that it leaves. -/
def on {α : Type} (step : Step α) (m : Machine) : Except Fault α × Machine := step.run.run m

end Step

end Lockstep
