import ThreeAddress.Budget
import ThreeAddress.Diagnostic

namespace ThreeAddress

inductive LogLevel where
  | info
  | warn
  deriving DecidableEq, Repr

structure LogLine where
  level : LogLevel
  message : String
  deriving DecidableEq, Repr

def LogLine.text (l : LogLine) : String :=
  match l.level with
  | .info => s!"INFO: {l.message}"
  | .warn => s!"WARN: {l.message}"

/-- How a task ends. A crash may say why. -/
inductive Attempt (α : Type) where
  | done (a : α)
  | failed (d : Diagnostic)
  | crashed (reason : Option String)

namespace Attempt

def ofExcept {α : Type} : Except Diagnostic α → Attempt α
  | .ok a => .done a
  | .error d => .failed d

def crashReason (reason : Option String) : String := reason.getD "unknown panic"

def result {α : Type} : Attempt α → Except Diagnostic α
  | .done a => .ok a
  | .failed d => .error d
  | .crashed reason => .error (.error .task s!"task failed: {crashReason reason}" .nowhere)

/-- A line for the crash of a task. -/
def logLine? {α : Type} (i : Nat) : Attempt α → Option LogLine
  | .crashed reason => some ⟨.warn, s!"[scheduler] task {i} panicked: {crashReason reason}"⟩
  | _ => none

@[simp] theorem result_ofExcept {α : Type} (e : Except Diagnostic α) :
    (ofExcept e).result = e := by
  cases e <;> rfl

end Attempt

/-- Runs tasks under one budget. Results come in the order of the tasks. -/
def runTasks {α : Type} (budget : Budget) (tasks : List (Budget → Attempt α)) :
    List (Except Diagnostic α) × List LogLine :=
  let attempts := tasks.map (· budget)
  (attempts.map (·.result), attempts.zipIdx.filterMap fun (a, i) => a.logLine? i)

/-- There is always a worker. -/
def workerCount (wanted : Nat) : Nat := max wanted 1

end ThreeAddress
