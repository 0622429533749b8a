import ThreeAddress.Batch.Command
import ThreeAddress.Sample.Generate

namespace ThreeAddress.Benchmark

/-- Times in milliseconds and a speed, as they are printed. -/
structure Measures where
  generate : String
  start : String
  batch : String
  speed : String

/-- A quotient as a whole number; a half goes to the even neighbour. -/
def roundDiv (n d : Nat) : Nat :=
  let (q, r) := (n / d, n % d)
  if 2 * r < d ∨ (2 * r = d ∧ q % 2 = 0) then q else q + 1

/-- A size with two places. -/
def mebibytes (bytes : Nat) : String :=
  let hundredths := roundDiv (100 * bytes) (1024 * 1024)
  let places := hundredths % 100
  let zero := if places < 10 then "0" else ""
  s!"{hundredths / 100}.{zero}{places} MiB"

def directory (base : String) : String := Path.join base "tacc-perf"

/-- Writes generated files one after the other. -/
def writeSamples (folder : String) (length : Nat) :
    List Nat → SplitMix → Workspace → Except (String × FileError) (Workspace × List String)
  | [], _, w => .ok (w, [])
  | i :: is, g, w => do
    let (text, g) := (Sample.program SplitMix.dice length s!"m{i}").run g
    let path := Path.join folder s!"m{i}.src"
    let w ← (w.write path text.toUTF8.toList).mapError (path, ·)
    let (w, paths) ← writeSamples folder length is g w
    return (w, path :: paths)

/-- Generated files, by settings of the environment, in a folder for temporary files. -/
def samples (m : Measures) (env : Environment) (base : String) (w : Workspace) :
    Except Exit (Workspace × List String × String) :=
  let files := (env.word? "PERF_FILES").getD 32
  let length := (env.word? "PERF_LEN").getD 100000
  let seed := (env.word? "PERF_SEED").getD 42
  let folder := directory base
  match w.makeDirectories folder with
  | (.error e, _) => .error ⟨2, "", s!"error: failed to create {folder}: {e.message}\n"⟩
  | (.ok _, w) =>
    match writeSamples folder length (List.range files) ⟨seed.toUInt64⟩ w with
    | .error (path, e) => .error ⟨2, "", s!"error: failed to write {path}: {e.message}\n"⟩
    | .ok (w, paths) =>
      .ok (w, paths,
        s!"Input: {files} generated files of >= {length} bytes [seed={seed}] in {m.generate} ms\n")

def batchLine (m : Measures) (o : BatchOutput) : String :=
  let instructions := o.reports.foldl (fun n r => n + r.instructions.length) 0
  let diagnostics := o.diagnostics.length
  s!"Batch: {m.batch} ms | instructions={instructions} | diagnostics={diagnostics} | " ++
    s!"throughput={m.speed} MiB/s\n"

/-- Compiles a batch. At most ten problems are printed, and only if there is an error. -/
def compile (m : Measures) (env : Environment) (w : Workspace) (paths : List String)
    (before : String) : Exit :=
  let bytes := (paths.filterMap w.sizeOf?).foldl (· + ·) 0
  let size := mebibytes bytes
  let out := before ++ s!"Input: {paths.length} files, {size} ({bytes} bytes)\n"
  match Compiler.new (.ofEnvironment env) w.openFile with
  | .error e => ⟨1, out, s!"init failed: {e.message}\n"⟩
  | .ok (c, _) =>
    let out := out ++ s!"Init: {m.start} ms | workers={workerCount c.config.workers}\n"
    match c.compile w.openFile paths with
    | .error e => ⟨1, out, s!"compile failed: {e.message}\n"⟩
    | .ok (o, _) =>
      let problems := if o.hasErrors then o.diagnostics.take 10 else []
      ⟨0, out ++ batchLine m o, FileReport.diagnosticLines problems⟩

def run (m : Measures) (args : List String) (env : Environment) (base : String) (w : Workspace) :
    Exit :=
  if args.isEmpty then
    match samples m env base w with
    | .error e => e
    | .ok (w, paths, before) => compile m env w paths before
  else compile m env w args ""

end ThreeAddress.Benchmark
