import ThreeAddress.Batch.Compile

namespace ThreeAddress

/-- The end of a command. -/
structure Exit where
  status : Nat
  stdout : String
  stderr : String
  deriving DecidableEq, Repr

namespace Command

/-- Compiles the files that arguments name. -/
def compile (args : List String) (env : Environment) (files : OpenFile) : Exit :=
  let i := Invocation.ofArguments args
  if i.files.isEmpty then ⟨2, "", usage⟩
  else
    match compileInvocation i (.ofEnvironment env) files with
    | .error e => ⟨3, "", s!"fatal: {e.message}\n"⟩
    | .ok (config, output, _) =>
      let text := if config.emitJson then output.json.pretty ++ "\n" else output.text
      ⟨if output.hasErrors then 1 else 0, text, ""⟩

def defaultTablePath : String := "tables/tacc_tables.json"

/-- Lines about the tables of the language. -/
def tableSummary : String :=
  let (states, kinds) := (Enumerated.count State, Enumerated.count TokenKind)
  let phases := Enumerated.count Phase
  let (entries, steps) := (Grammar.table.filled, Phase.table.filled)
  "[gen_tables] building tables…\n" ++
    s!"[gen_tables] transition: {states} states x {kinds} kinds, {entries} entries filled\n" ++
    s!"[gen_tables] generation: {phases} states x {states} node kinds, {steps} entries filled\n"

/-- Writes the tables of the language to a file, after making the directories above it. -/
def writeTables (args : List String) (w : Workspace) : Exit × Workspace :=
  let path := args.head?.getD defaultTablePath
  let above := (Path.parent? path).getD ""
  match w.makeDirectories above with
  | (.error e, w) => (⟨1, "", s!"error: failed to create {above}: {e.message}\n"⟩, w)
  | (.ok _, w) =>
    match w.write path TableSet.built.text.toUTF8.toList with
    | .error e => (⟨1, tableSummary, s!"error: failed to write {path}: {e.message}\n"⟩, w)
    | .ok w => (⟨0, tableSummary ++ s!"[gen_tables] wrote {path}\n", ""⟩, w)

end Command

end ThreeAddress
