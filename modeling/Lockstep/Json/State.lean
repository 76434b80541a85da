import Lockstep.Report

set_option autoImplicit false

/-! # States as JSON

The form in which reported states are kept in files: objects with all fields, absent parts as null,
and components as numbers. -/

namespace Lockstep

/-- A JSON value. -/
inductive Json
  | null
  | natural (n : Nat)
  | string (s : String)
  | array (items : List Json)
  | object (members : List (String × Json))
deriving Repr, Inhabited

/-- A slot as JSON. -/
def Slot.toJson (s : Slot) : Json :=
  .object [("register", .natural s.register.toNat), ("space", .natural s.space.toNat),
    ("heap", .string (nameOf s.heap)), ("heap_index", .natural s.heapIndex.toNat)]

/-- A value as JSON. -/
def Value.toJson (v : Value) : Json :=
  .object [("comps", .array (v.comps.toList.map fun w => .natural w.toNat))]

namespace Variable

mutual

/-- A variable as JSON. -/
def toJson : Variable → Json
  | { name, elem, rows, columns, value, members, slot } =>
    .object [("name", .string name), ("ty", .string (nameOf elem)), ("rows", .natural rows.toNat),
      ("columns", .natural columns.toNat), ("value", value.toJson),
      ("members", .array (listToJson members)), ("binding", (slot.map Slot.toJson).getD .null)]

/-- Several variables as JSON. -/
def listToJson : List Variable → List Json
  | [] => []
  | v :: vs => v.toJson :: listToJson vs

end

end Variable

/-- A change as JSON. -/
def Change.toJson (c : Change) : Json :=
  .object [("before", (c.before.map Variable.toJson).getD .null),
    ("after", (c.after.map Variable.toJson).getD .null)]

/-- A state as JSON. -/
def StepState.toJson (s : StepState) : Json :=
  .object [("step_index", .natural s.index), ("next_instruction", .natural s.next),
    ("flags", .natural s.events.bits.toNat), ("changes", .array (s.changes.map Change.toJson))]

end Lockstep
