import Lockstep.Table

set_option autoImplicit false

/-! # Words of closed sets

Opcodes, element types, resource kinds and the like are closed sets whose members have printed
names. One listing per set gives both directions: the name of a member and the member of a name. -/

namespace Lockstep

/-- A closed set with a name for each member. -/
class Named (α : Type) where
  /-- Every member with its name, each once. -/
  listing : List (α × String)

/-- The name of a member. -/
def nameOf {α : Type} [DecidableEq α] [Named α] (a : α) : String :=
  (Table.lookup a Named.listing).getD ""

/-- The member with a name. -/
def ofName? (α : Type) [Named α] (s : String) : Option α :=
  (Named.listing.find? fun p => p.2 == s).map (·.1)

end Lockstep
