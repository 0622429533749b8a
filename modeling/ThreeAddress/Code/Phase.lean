import ThreeAddress.Table.Basic
import ThreeAddress.Tree.State

namespace ThreeAddress

inductive Phase where
  | initial
  | declarations
  | functionEntry
  | functionBody
  | functionExit
  | finished
  deriving DecidableEq, Repr

namespace Phase

def all : List Phase :=
  [.initial, .declarations, .functionEntry, .functionBody, .functionExit, .finished]

def name : Phase → String
  | .initial => "Initial"
  | .declarations => "Declarations"
  | .functionEntry => "FunctionEntry"
  | .functionBody => "FunctionBody"
  | .functionExit => "FunctionExit"
  | .finished => "Finished"

instance : Enumerated Phase where
  all := all
  index p := p.ctorIdx
  name := name
  all_index p := by cases p <;> rfl

/-- Between declarations. -/
def item : State → Option Phase
  | .typeKw | .globalKw => some .declarations
  | .funcKw => some .functionEntry
  | .finished => some .finished
  | _ => none

/-- Between statements. -/
def statement : State → Option Phase
  | .localKw | .assignEq | .callStmt | .returnKw => some .functionBody
  | .bodyClose => some .functionExit
  | _ => none

def next (p : Phase) (s : State) : Option Phase :=
  match p with
  | .initial | .declarations | .functionExit => item s
  | .functionEntry => if s = .paramName then some .functionEntry else statement s
  | .functionBody => statement s
  | .finished => none

end Phase

abbrev GenerationTable := Table Phase State Phase

def Phase.table : GenerationTable := ⟨Phase.next⟩

end ThreeAddress
