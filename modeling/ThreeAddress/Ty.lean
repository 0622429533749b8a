import ThreeAddress.Token.Basic
import ThreeAddress.Token.Numeral

namespace ThreeAddress

inductive Ty where
  | int
  | float
  | bool
  deriving DecidableEq, Repr

namespace Ty

def text : Ty → String
  | .int => "int"
  | .float => "float"
  | .bool => "bool"

/-- The type that a reserved word names. -/
def ofKind? : TokenKind → Option Ty
  | .intWord => some .int
  | .floatWord => some .float
  | .boolWord => some .bool
  | _ => none

/-- The type of a literal. A number with a point is a float. -/
def ofLiteral? (t : Token) : Option Ty :=
  match t.kind with
  | .trueWord | .falseWord => some .bool
  | .number => some (if Numeral.isFloat t.lexeme.toList then .float else .int)
  | _ => none

def isNumeric : Ty → Bool
  | .int | .float => true
  | .bool => false

end Ty

end ThreeAddress
