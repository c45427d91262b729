import TaskRelay.Table

/-!
# Stream entries

An entry of a stream has an identifier and a map from field names to texts. The
map is kept in order of field names, so equal maps are equal values.
-/

set_option autoImplicit false

namespace TaskRelay

abbrev Fields := Table String String

structure Entry where
  id : String
  fields : Fields
  deriving DecidableEq, Repr

def Entry.field? (e : Entry) (name : String) : Option String := Table.get? name e.fields

end TaskRelay
