import ThreeAddress.Token.Basic

namespace ThreeAddress

inductive Severity where
  | error
  | warning
  deriving DecidableEq, Repr

def Severity.text : Severity → String
  | .error => "error"
  | .warning => "warning"

/-- The part of the work that a problem came up in. -/
inductive Stage where
  | io
  | lexical
  | parsing
  | semantic
  | flag
  | task
  deriving DecidableEq, Repr

def Stage.text : Stage → String
  | .io => "io"
  | .lexical => "lexical"
  | .parsing => "syntax"
  | .semantic => "semantic"
  | .flag => "flag"
  | .task => "task"

/-- What a problem belongs to: nothing in particular, a file, or a place in a file. -/
inductive Place where
  | nowhere
  | file (label : String)
  | site (s : Site)
  deriving DecidableEq, Repr

namespace Place

def file? : Place → Option String
  | .nowhere => none
  | .file label => some label
  | .site s => some s.file

def site? : Place → Option Site
  | .site s => some s
  | _ => none

end Place

structure Note where
  message : String
  site : Option Site
  deriving DecidableEq, Repr

structure Diagnostic where
  severity : Severity
  stage : Stage
  message : String
  place : Place
  notes : List Note
  deriving DecidableEq, Repr

namespace Diagnostic

def error (stage : Stage) (message : String) (place : Place) : Diagnostic :=
  ⟨.error, stage, message, place, []⟩

def warning (stage : Stage) (message : String) : Diagnostic :=
  ⟨.warning, stage, message, .nowhere, []⟩

/-- An error of the analysis, at a token. -/
def semantic (message : String) (t : Token) : Diagnostic :=
  error .semantic message (.site t.site)

def withNote (message : String) (site : Site) (d : Diagnostic) : Diagnostic :=
  { d with notes := d.notes ++ [⟨message, some site⟩] }

/-- A problem that belongs to nothing yet belongs to the file. -/
def inFile (label : String) (d : Diagnostic) : Diagnostic :=
  match d.place with
  | .nowhere => { d with place := .file label }
  | _ => d

def isError (d : Diagnostic) : Bool := d.severity == .error

def placeText : Place → String
  | .nowhere => ""
  | .file label => s!"{label}: "
  | .site s => s!"{s.text}: "

def noteText (n : Note) : String :=
  match n.site with
  | some s => s!"\n  = note: {n.message} at {s.text}"
  | none => s!"\n  = note: {n.message}"

def text (d : Diagnostic) : String :=
  s!"{placeText d.place}{d.severity.text}[{d.stage.text}]: {d.message}" ++
    String.join (d.notes.map noteText)

/-- File, line and column; what is missing comes first. -/
def key (d : Diagnostic) : Option String × Nat × Nat :=
  (d.place.file?, (d.place.site?.map (·.line)).getD 0, (d.place.site?.map (·.column)).getD 0)

def fileLe : Option String → Option String → Bool
  | none, _ => true
  | some _, none => false
  | some a, some b => decide (a ≤ b)

/-- Keys in order, file before line before column. -/
def keyLe (a b : Option String × Nat × Nat) : Bool :=
  if a.1 = b.1 then a.2.1 < b.2.1 || (a.2.1 == b.2.1 && a.2.2 ≤ b.2.2) else fileLe a.1 b.1

/-- By key; problems of one key keep their order. -/
def sort (ds : List Diagnostic) : List Diagnostic :=
  ds.mergeSort fun a b => keyLe a.key b.key

theorem sort_perm (ds : List Diagnostic) : (sort ds).Perm ds := List.mergeSort_perm ds _

end Diagnostic

end ThreeAddress
