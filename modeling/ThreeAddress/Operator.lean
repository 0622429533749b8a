import ThreeAddress.Ty

namespace ThreeAddress

inductive Operator where
  | add
  | sub
  | mul
  | div
  | rem
  | lt
  | gt
  | le
  | ge
  | eq
  | ne
  | and
  | or
  deriving DecidableEq, Repr

namespace Operator

def ofKind? : TokenKind → Option Operator
  | .plus => some .add
  | .minus => some .sub
  | .star => some .mul
  | .slash => some .div
  | .percent => some .rem
  | .lt => some .lt
  | .gt => some .gt
  | .le => some .le
  | .ge => some .ge
  | .eqEq => some .eq
  | .notEq => some .ne
  | .andWord => some .and
  | .orWord => some .or
  | _ => none

def name : Operator → String
  | .add => "Add"
  | .sub => "Sub"
  | .mul => "Mul"
  | .div => "Div"
  | .rem => "Rem"
  | .lt => "Lt"
  | .gt => "Gt"
  | .le => "Le"
  | .ge => "Ge"
  | .eq => "Eq"
  | .ne => "Ne"
  | .and => "And"
  | .or => "Or"

def symbol : Operator → String
  | .add => "+"
  | .sub => "-"
  | .mul => "*"
  | .div => "/"
  | .rem => "%"
  | .lt => "<"
  | .gt => ">"
  | .le => "<="
  | .ge => ">="
  | .eq => "=="
  | .ne => "!="
  | .and => "and"
  | .or => "or"

/-- Larger binds tighter. Operators of one power group to the left. -/
def power : Operator → Nat
  | .or => 1
  | .and => 2
  | .lt | .gt | .le | .ge | .eq | .ne => 3
  | .add | .sub => 4
  | .mul | .div | .rem => 5

/-- The type of a result, if the operands fit. -/
def result (op : Operator) (l r : Ty) : Option Ty :=
  match op with
  | .add | .sub | .mul | .div => if l = r ∧ l.isNumeric then some l else none
  | .rem => if l = .int ∧ r = .int then some .int else none
  | .lt | .gt | .le | .ge => if l = r ∧ l.isNumeric then some .bool else none
  | .eq | .ne => if l = r then some .bool else none
  | .and | .or => if l = .bool ∧ r = .bool then some .bool else none

end Operator

end ThreeAddress
