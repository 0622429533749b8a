import ThreeAddress.Analysis.Batch
import ThreeAddress.Batch.Invocation
import ThreeAddress.Batch.Report
import ThreeAddress.Batch.Task
import ThreeAddress.Code.Emit
import ThreeAddress.Files.Workspace
import ThreeAddress.Table.File
import ThreeAddress.Token.Stream
import ThreeAddress.Tree.Parse

namespace ThreeAddress

/-- What stops a whole batch. -/
inductive FatalError where
  | unreadableTables (path reason : String)
  | badTables (path : String) (e : TableError)
  | code (e : CodeError)
  deriving DecidableEq, Repr

namespace FatalError

/-- What was being done. -/
def context : FatalError → String
  | .unreadableTables path _ => s!"reading tables from {path}"
  | .badTables path _ => s!"loading tables from {path}"
  | .code e => e.message

def message (f : FatalError) : String :=
  match f with
  | .unreadableTables _ reason => s!"{f.context}: {reason}"
  | .badTables _ e => s!"{f.context}: {e.message}"
  | .code _ => f.context

end FatalError

namespace LexError

/-- A file that cannot be read is no fault of its text. -/
def stage (e : LexError) : Stage :=
  match e.fault with
  | .unreadable _ => .io
  | _ => .lexical

def diagnostic (e : LexError) : Diagnostic := .error e.stage e.fault.message (.site e.site)

end LexError

def SyntaxError.diagnostic (e : SyntaxError) : Diagnostic :=
  .error .parsing e.detail <|
    match e with
    | .unexpected site _ _ => .site site
    | .inconsistent site _ => .site site
    | .unexpectedEnd file => .file file

/-- A tree with the number of its tokens. -/
structure Parsed where
  tree : Tree
  tokens : Nat

/-- Opens, reads and parses one file. -/
def parseFile (table : TransitionTable) (files : OpenFile) (path : String) (budget : Budget) :
    Except Diagnostic Parsed := do
  let source ← (files path).mapError fun e =>
    .error .io s!"cannot open source file: {e.message}" (.file path)
  let tokens ← (tokenize budget path source).mapError (·.diagnostic)
  let tree ← (parse table tokens).mapError (·.diagnostic)
  return ⟨tree, tokens.length⟩

/-- What became of one path. -/
structure FileOutcome where
  path : String
  result : Except Diagnostic Parsed

namespace FileOutcome

def tree? (o : FileOutcome) : Option Tree := o.result.toOption.map (·.tree)

def tokens (o : FileOutcome) : Nat := (o.result.toOption.map (·.tokens)).getD 0

end FileOutcome

/-- Settings, the tables of all batches, and whether work is called off. -/
structure Compiler where
  config : Config
  tables : TableSet
  cancelled : Bool

namespace Config

/-- The tables of the language, or those of the configured file. -/
def loadTables (c : Config) (files : OpenFile) : Except FatalError (TableSet × List LogLine) :=
  match c.tablesPath with
  | none => .ok (.built, [])
  | some path =>
    match files path with
    | .error e => .error (.unreadableTables path e.message)
    | .ok ⟨_, some reason⟩ => .error (.unreadableTables path reason)
    | .ok ⟨bytes, none⟩ =>
      match TableSet.ofBytes bytes with
      | .error e => .error (.badTables path e)
      | .ok tables => .ok (tables, [⟨.info, s!"[config] loaded tables from {path}"⟩])

end Config

namespace Compiler

def new (config : Config) (files : OpenFile) : Except FatalError (Compiler × List LogLine) := do
  let (tables, log) ← config.loadTables files
  return (⟨config, tables, false⟩, log)

def budget (c : Compiler) : Budget := ⟨c.cancelled, c.config.deadline⟩

/-- Parses every file. A problem without a place belongs to its file. -/
def parseAll (c : Compiler) (files : OpenFile) (paths : List String) :
    List FileOutcome × List LogLine :=
  let tasks := paths.map fun path budget =>
    Attempt.ofExcept (parseFile c.tables.transition files path budget)
  let (results, log) := runTasks c.budget tasks
  let outcomes := (paths.zip results).map fun (path, result) =>
    ⟨path, result.mapError (·.inFile path)⟩
  (outcomes, log)

/-- The problems of a file, its own one and those that the analysis found in it, in order of their
places. -/
def faultsOf (o : FileOutcome) (found : List Diagnostic) : List Diagnostic :=
  let own := match o.result with
    | .ok _ => []
    | .error d => [d]
  Diagnostic.sort (own ++ found)

/-- Problems of the analysis that belong to none of so many files. -/
def strayFaults (a : Analysis) (files : Nat) : List Diagnostic :=
  (a.faults.filter (files ≤ ·.origin)).map (·.diagnostic)

/-- The report of a file, without its code. -/
def report (c : Compiler) (o : FileOutcome) (found : List Diagnostic) : FileReport where
  file := o.path
  diagnostics := faultsOf o found
  instructions := []
  tree := if c.config.dumpTree then o.tree?.map (·.text) else none

/-- The code of every file; a file without a tree has none. -/
def codeOf (c : Compiler) (a : Analysis) (outcomes : List FileOutcome) :
    Except CodeError (List (List Instruction)) :=
  outcomes.mapM fun o =>
    match o.tree? with
    | some t => t.emit c.tables.generation a.symbols
    | none => .ok []

def tokenLog (c : Compiler) (outcomes : List FileOutcome) : List LogLine :=
  if c.config.dumpTokens then
    outcomes.filterMap fun o =>
      o.result.toOption.map fun p => ⟨.info, s!"[tokens] {o.path}: {p.tokens} tokens"⟩
  else []

def skipLog (a : Analysis) : List LogLine :=
  if a.valid then []
  else [⟨.info, "[compiler] semantic errors, lowering skipped for the batch"⟩]

/-- Problems of single files are in their reports; only tables that do not fit are an error. -/
def compile (c : Compiler) (files : OpenFile) (paths : List String) :
    Except CodeError (BatchOutput × List LogLine) := do
  let (outcomes, log) := c.parseAll files paths
  let analysis := Analysis.ofOutcomes (outcomes.map (·.tree?))
  let code ← if analysis.valid && !c.config.checkOnly then c.codeOf analysis outcomes
    else .ok (outcomes.map fun _ => [])
  let found := analysis.faultsByFile
  let reports := (outcomes.zipIdx.zip code).map fun ((o, i), instructions) =>
    { c.report o (found.getD i []) with instructions }
  return (⟨reports, strayFaults analysis outcomes.length⟩,
    log ++ c.tokenLog outcomes ++ skipLog analysis)

end Compiler

/-- Applies the flags of an invocation and compiles its files. Unknown flags are warnings of the
batch. -/
def compileInvocation (i : Invocation) (base : Config) (files : OpenFile) :
    Except FatalError (Config × BatchOutput × List LogLine) := do
  let config := i.configure base
  let (compiler, log) ← Compiler.new config files
  let (output, more) ← (compiler.compile files i.files).mapError .code
  let output := { output with batchDiagnostics := i.warnings ++ output.batchDiagnostics }
  return (config, output, log ++ more)

end ThreeAddress
