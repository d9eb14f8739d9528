import LuaBundle.Number.Basic

/-! Values of JSON. An object keeps its members as they were written; where a name occurs twice,
the last member counts. -/

namespace LuaBundle

inductive Json where
  | null
  | bool (value : Bool)
  | number (value : Number)
  | string (value : Text)
  | array (items : List Json)
  | object (members : List (Text × Json))

namespace Json

def member? (name : Text) (members : List (Text × Json)) : Option Json :=
  (members.reverse.find? fun m => m.1 == name).map (·.2)

/-- The member of a name; only an object has one. -/
def field? (name : Text) : Json → Option Json
  | object members => member? name members
  | _ => none

def string? : Json → Option Text
  | string value => some value
  | _ => none

def array? : Json → Option (List Json)
  | array items => some items
  | _ => none

/-- The items of an array of nothing but strings. -/
def strings? : Json → Option (List Text)
  | array items => items.mapM string?
  | _ => none

end Json

end LuaBundle
