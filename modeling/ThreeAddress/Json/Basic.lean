import ThreeAddress.Token.Numeral

namespace ThreeAddress

/-- A string is `none` when its literal is well delimited but writes no text: it breaks UTF-8 or
has half a surrogate pair. -/
inductive Json where
  | null
  | bool (b : Bool)
  | number (literal : String)
  | string (text : Option String)
  | array (elements : List Json)
  | object (members : List (Option String × Json))

namespace Json

def ofText (s : String) : Json := .string (some s)

def ofNat (n : Nat) : Json := .number (toString n)

def ofObject (members : List (String × Json)) : Json :=
  .object (members.map fun (k, v) => (some k, v))

/-- The value or `null`. -/
def ofOption (f : α → Json) : Option α → Json
  | none => .null
  | some a => f a

def ofTexts (ss : List String) : Json := .array (ss.map ofText)

def text? : Json → Option String
  | .string s => s
  | _ => none

def bool? : Json → Option Bool
  | .bool b => some b
  | _ => none

def elements? : Json → Option (List Json)
  | .array es => some es
  | _ => none

/-- A number written with digits alone. -/
def nat? : Json → Option Nat
  | .number l => if l.isEmpty then none else Numeral.digitsValue 10 l.toList
  | _ => none

/-- The first member of a key. -/
def get? (key : String) : Json → Option Json
  | .object ms => (ms.find? fun m => m.1 == some key).map (·.2)
  | _ => none

end Json

end ThreeAddress
