/-!
TOML values.
-/

namespace CrossIndex

/-- A TOML value. Numbers and dates without use here are kept as they are written. -/
inductive Toml where
  | string (text : String)
  | integer (value : Int)
  | float (text : String)
  | boolean (value : Bool)
  | datetime (text : String)
  | array (items : List Toml)
  | table (members : List (String × Toml))
  deriving Inhabited

namespace Toml

/-- Keys of more parts, and arrays and inline tables nested deeper, are refused from here on. -/
def nestingLimit : Nat := 80

def member? (members : List (String × Toml)) (key : String) : Option Toml :=
  (members.find? (·.1 = key)).map Prod.snd

end Toml

end CrossIndex
