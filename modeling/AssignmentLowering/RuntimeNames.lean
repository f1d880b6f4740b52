/-!
# Names of the runtime helpers

Lowered code calls helpers of the script runtime. It knows them by name only,
and every name can be chosen.

## Main definitions

* `RuntimeNames` — the names, with those that hold unless others are chosen.
-/

namespace AssignmentLowering

/-- The names that generated script uses besides those of the program. -/
structure RuntimeNames where
  /-- What the names of temporaries begin with. -/
  temp : String := "$tmp"
  /-- Copies a value of a mutable value type. -/
  clone : String := "$Clone"
  /-- Overwrites one value with another in place. -/
  shallowCopy : String := "$ShallowCopy"
  /-- Reads an element of an array of higher rank. -/
  multiGet : String := "$MultidimArrayGet"
  /-- Writes an element of an array of higher rank. -/
  multiSet : String := "$MultidimArraySet"
  /-- Calls the method that a given base type has. -/
  callBase : String := "$CallBase"
  /-- Makes the default value of a value type. -/
  defaultValue : String := "$Default"
  /-- The member that holds the value of a by-reference cell. -/
  cellMember : String := "$"
  deriving DecidableEq, Repr

end AssignmentLowering
