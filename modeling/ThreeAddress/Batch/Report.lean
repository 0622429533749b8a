import ThreeAddress.Code.Instruction
import ThreeAddress.Diagnostic
import ThreeAddress.Json.Printer

namespace ThreeAddress

namespace Site

def json (s : Site) : Json :=
  .ofObject [("file", .ofText s.file), ("line", .ofNat s.line), ("column", .ofNat s.column)]

end Site

namespace Diagnostic

def noteJson (n : Note) : Json :=
  .ofObject [("message", .ofText n.message), ("at", .ofOption Site.json n.site)]

def members (d : Diagnostic) : List (String × Json) :=
  [("severity", .ofText d.severity.text), ("stage", .ofText d.stage.text),
    ("message", .ofText d.message), ("file", .ofOption .ofText d.place.file?),
    ("line", .ofOption (fun s => .ofNat s.line) d.place.site?),
    ("column", .ofOption (fun s => .ofNat s.column) d.place.site?),
    ("notes", .array (d.notes.map noteJson))]

def json (d : Diagnostic) : Json := .ofObject d.members

end Diagnostic

structure FileReport where
  file : String
  diagnostics : List Diagnostic
  instructions : List Instruction
  tree : Option String

namespace FileReport

def hasErrors (r : FileReport) : Bool := r.diagnostics.any (·.isError)

def diagnosticLines (ds : List Diagnostic) : String :=
  String.join (ds.map fun d => d.text ++ "\n")

def treeText (r : FileReport) : String :=
  match r.tree with
  | some tree => s!"== {r.file} (tree) ==\n{tree}"
  | none => ""

def codeText (r : FileReport) : String :=
  if r.instructions.isEmpty then ""
  else s!"== {r.file} ==\n" ++ String.join (r.instructions.map fun i => s!"    {i.text}\n")

def text (r : FileReport) : String := r.treeText ++ diagnosticLines r.diagnostics ++ r.codeText

/-- A tree that is missing has no member. -/
def json (r : FileReport) : Json :=
  let tree := match r.tree with
    | some tree => [("tree", Json.ofText tree)]
    | none => []
  .ofObject ([("file", .ofText r.file), ("diagnostics", .array (r.diagnostics.map (·.json))),
    ("instructions", .ofTexts (r.instructions.map (·.text)))] ++ tree)

end FileReport

structure BatchOutput where
  reports : List FileReport
  batchDiagnostics : List Diagnostic

namespace BatchOutput

def diagnostics (o : BatchOutput) : List Diagnostic :=
  o.batchDiagnostics ++ o.reports.flatMap (·.diagnostics)

def hasErrors (o : BatchOutput) : Bool := o.diagnostics.any (·.isError)

/-- The first report of a file. -/
def report? (o : BatchOutput) (file : String) : Option FileReport :=
  o.reports.find? fun r => r.file == file

def text (o : BatchOutput) : String :=
  FileReport.diagnosticLines o.batchDiagnostics ++ String.join (o.reports.map (·.text))

def json (o : BatchOutput) : Json :=
  .ofObject [("reports", .array (o.reports.map (·.json))),
    ("batch_diagnostics", .array (o.batchDiagnostics.map (·.json)))]

end BatchOutput

end ThreeAddress
