namespace ThreeAddress

inductive Exhausted where
  | cancelled
  | deadline
  deriving DecidableEq, Repr

def Exhausted.message : Exhausted → String
  | .cancelled => "cancelled"
  | .deadline => "deadline of 0ns exceeded"

/-- A raised flag and a limit in milliseconds. -/
structure Budget where
  cancelled : Bool
  deadline : Option Nat
  deriving DecidableEq, Repr

namespace Budget

def unlimited : Budget := ⟨false, none⟩

/-- Cancellation is seen first. -/
def check (b : Budget) : Option Exhausted :=
  if b.cancelled then some .cancelled
  else if b.deadline = some 0 then some .deadline
  else none

@[simp] theorem check_unlimited : unlimited.check = none := rfl

end Budget

end ThreeAddress
