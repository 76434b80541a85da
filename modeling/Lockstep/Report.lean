import Lockstep.Variable

set_option autoImplicit false

/-! # What a step reports

Each step of the reporting lane gives a `StepState`: where the lane goes next, which events
occurred, and which variables were created, updated or removed, in order. -/

namespace Lockstep

/-- A set of events, as bits. -/
structure Events where
  bits : UInt32 := 0
deriving DecidableEq, Repr, Inhabited

namespace Events

/-- No event. -/
def none : Events := {}

/-- A float result was a NaN or an infinity. -/
def generatedNonFinite : Events := ⟨1⟩

/-- The host sampled, loaded or gathered for the step. -/
def sampled : Events := ⟨2⟩

/-- The events of both sets. -/
def union (a b : Events) : Events := ⟨a.bits ||| b.bits⟩

/-- Whether every event of a set is among these. -/
def contains (a b : Events) : Bool := a.bits &&& b.bits == b.bits

/-- Whether there is no event. -/
def isEmpty (a : Events) : Bool := a.bits == 0

end Events

/-- A variable before and after a step; one that was created has no `before`, one that was removed
    no `after`. -/
structure Change where
  before : Option Variable := none
  after : Option Variable := none
deriving Repr, Inhabited

namespace Change

/-- A variable came into being. -/
def created (after : Variable) : Change := { after := some after }

/-- A variable went out of scope. -/
def removed (before : Variable) : Change := { before := some before }

/-- A variable got a value in place of another. -/
def updated (before after : Variable) : Change := { before := some before, after := some after }

/-- The name of the variable. -/
def name (c : Change) : String := ((c.after <|> c.before).map Variable.name).getD ""

end Change

/-- The report of one step. -/
structure StepState where
  /-- The number of the step; the state before the first step has number zero. -/
  index : Nat := 0
  /-- The instruction that the lane executes next, counted over the whole program. -/
  next : Nat := 0
  events : Events := .none
  changes : List Change := []
deriving Repr, Inhabited

/-- The first change of a variable with a name. -/
def StepState.change? (s : StepState) (name : String) : Option Change :=
  s.changes.find? (·.name == name)

end Lockstep
