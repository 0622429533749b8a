import ThreeAddress.Analysis.Body
import ThreeAddress.Analysis.Resolution

namespace ThreeAddress

/-- The trees of a batch, each with the number of its file. Files without one keep theirs. -/
def parsedFiles (outcomes : List (Option Tree)) : List (Nat × Tree) :=
  outcomes.zipIdx.filterMap fun (t, i) => t.map (i, ·)

structure Analysis where
  symbols : SymbolTable
  faults : List Fault

namespace Analysis

def diagnostics (a : Analysis) : List Diagnostic := a.faults.map (·.diagnostic)

def valid (a : Analysis) : Bool := !a.diagnostics.any (·.isError)

/-- The problems of each file that has any, by the number of the file. -/
def group (faults : List Fault) : Std.TreeMap Nat (List Diagnostic) :=
  faults.foldr (fun f m => m.insert f.origin (f.diagnostic :: m.getD f.origin [])) {}

theorem getD_group (faults : List Fault) (i : Nat) :
    (group faults).getD i [] = (faults.filter (·.origin == i)).map (·.diagnostic) := by
  induction faults with
  | nil => simp [group]
  | cons f fs ih =>
    simp only [group, List.foldr_cons] at ih ⊢
    by_cases h : f.origin = i
    · simp [h, ih]
    · simp [Std.TreeMap.getD_insert, h, ih]

def faultsByFile (a : Analysis) : Std.TreeMap Nat (List Diagnostic) := group a.faults

/-- The bodies of a file's functions. -/
def bodies (symbols : SymbolTable) (t : Tree) : List Diagnostic × List Symbol :=
  let checked := t.functions.map (·.check symbols)
  (checked.flatMap (·.1), checked.flatMap (·.2))

/-- The table that the bodies of a batch are checked against. -/
@[inline] def headers (files : List (Nat × Tree)) : SymbolTable :=
  (Merged.ofFiles files).typedSymbols

/-- Analyses files, each with its number in the batch. -/
def ofFiles (files : List (Nat × Tree)) : Analysis :=
  let merged := Merged.ofFiles files
  let symbols := headers files
  let checked := files.map fun (i, t) => (i, bodies symbols t)
  { symbols := (checked.flatMap (·.2.2)).foldl SymbolTable.declareNew symbols
    faults :=
      merged.faults ++ merged.resolved.flatMap (·.2) ++
        checked.flatMap fun (i, faults, _) => faults.map (⟨i, ·⟩) }

/-- Analyses the files that have a tree. -/
def ofOutcomes (outcomes : List (Option Tree)) : Analysis := ofFiles (parsedFiles outcomes)

end Analysis

end ThreeAddress
