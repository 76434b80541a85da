import Lockstep.Json.Token
import Lockstep.Fault

set_option autoImplicit false

/-! # Configuration

What a user may set for a session, and how it is read from JSON text: an object with any of the
fields, or an array of their values in order. What is left out keeps its default, other keys are
passed over, and a key may not occur twice. Numbers have to be written with digits only. -/

namespace Lockstep

/-- The settings of a session. -/
structure Config where
  /-- How many states one call gives at most. -/
  stepsPerContinue : UInt32 := 100
  /-- The number of states after which the session fails. -/
  maxTotalSteps : Option UInt64 := none
  /-- Whether the analysis of control flow is to be logged. -/
  logControlFlow : Bool := false
  /-- Whether executed instructions are to be logged. -/
  traceInstructions : Bool := false
deriving DecidableEq, Repr, Inhabited

namespace Config

open Json

/-- A field of the configuration. -/
inductive Field
  | stepsPerContinue | maxTotalSteps | logControlFlow | traceInstructions
deriving DecidableEq, Repr

instance : Named Field where
  listing := [
    (.stepsPerContinue, "steps_per_continue"), (.maxTotalSteps, "max_total_steps"),
    (.logControlFlow, "log_control_flow"), (.traceInstructions, "trace_instructions")]

/-- Set a field to the value that a token gives. -/
def setField? (c : Config) (f : Field) (t : Token) : Option Config :=
  match f, t with
  | .stepsPerContinue, .natural n =>
    if n < UInt32.size then some { c with stepsPerContinue := n.toUInt32 } else none
  | .maxTotalSteps, .null => some { c with maxTotalSteps := none }
  | .maxTotalSteps, .natural n =>
    if n < UInt64.size then some { c with maxTotalSteps := some n.toUInt64 } else none
  | .logControlFlow, .bool b => some { c with logControlFlow := b }
  | .traceInstructions, .bool b => some { c with traceInstructions := b }
  | _, _ => none

/-- Read the values of fields in their order, up to the end of the array. -/
def ofItems? (c : Config) : List Field → List Token → Option Config
  | f :: fields, t :: rest =>
    (c.setField? f t).bind fun c => match rest with
      | [.closeArray] => some c
      | .comma :: rest => ofItems? c fields rest
      | _ => none
  | _, _ => none

/-- Read one member of an object: the fields that have occurred, the configuration, and what
    follows. -/
def member? (c : Config) (seen : List Field) : List Token →
    Option (List Field × Config × List Token)
  | .string (some key) :: .colon :: rest =>
    match ofName? Field key with
    | none => (skip? rest).map fun rest => (seen, c, rest)
    | some f =>
      match rest with
      | [] => none
      | t :: rest =>
        if seen.contains f then none else (c.setField? f t).map fun c => (f :: seen, c, rest)
  | _ => none

/-- What follows a member is shorter than what it is part of. -/
theorem length_lt_of_member? {c c' : Config} {seen seen' : List Field} {ts rest : List Token}
    (h : c.member? seen ts = some (seen', c', rest)) : rest.length < ts.length := by
  unfold member? at h
  split at h
  · next key after =>
    split at h
    · obtain ⟨r, hr, he⟩ := Option.map_eq_some_iff.1 h
      cases he
      have := length_lt_of_skipFrom hr
      simp only [List.length_cons]
      omega
    · split at h
      · cases h
      · split at h
        · cases h
        · obtain ⟨r, hr, he⟩ := Option.map_eq_some_iff.1 h
          cases he
          simp only [List.length_cons]
          omega
  · cases h

/-- Read the members of an object, up to its end. -/
def ofMembers? (c : Config) (seen : List Field) (ts : List Token) : Option Config :=
  match h : c.member? seen ts with
  | some (_, c, [.closeObject]) => some c
  | some (seen, c, .comma :: rest) =>
    have : rest.length < ts.length := by
      have := length_lt_of_member? h
      simp only [List.length_cons] at this
      omega
    ofMembers? c seen rest
  | _ => none
termination_by ts.length

/-- The configuration of a sequence of tokens. -/
def ofTokens? : List Token → Option Config
  | [.openObject, .closeObject] => some {}
  | [.openArray, .closeArray] => some {}
  | .openObject :: rest => ofMembers? {} [] rest
  | .openArray :: rest => ofItems? {} (Named.listing.map (·.1)) rest
  | _ => none

/-- Read a configuration. -/
def ofText (text : String) : Except Fault Config :=
  match (tokens? text).bind ofTokens? with
  | some c => .ok c
  | none => .error .configMalformed

/-- Read a configuration from the content of a file; no content means that the file cannot be
    read. -/
def ofFile (content : Option String) : Except Fault Config :=
  match content with
  | some text => ofText text
  | none => .error .configUnreadable

end Config

end Lockstep
