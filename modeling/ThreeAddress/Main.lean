import ThreeAddress.Batch.Command

namespace ThreeAddress

def FileError.ofIOError : IO.Error → FileError
  | .noFileOrDirectory _ _ _ => .notFound
  | .alreadyExists _ _ _ => .exists
  | .inappropriateType _ code detail =>
    if code = 21 then .isDirectory
    else if code = 20 then .notDirectory
    else .other detail code.toNat
  | .permissionDenied _ code detail => .other detail code.toNat
  | .resourceExhausted _ code detail => .other detail code.toNat
  | e => .other (toString e) 0

/-- What can be read of an open file. -/
def readSource (h : IO.FS.Handle) : IO Source := do
  try
    let bytes ← h.readBinToEnd
    return .ofBytes bytes.toList
  catch e => return ⟨[], some (FileError.ofIOError e).message⟩

def openPath (path : String) : IO (Except FileError Source) := do
  if path.toList.contains '\x00' then return .error .hasNul
  try
    let h ← IO.FS.Handle.mk path .read
    return .ok (← readSource h)
  catch e => return .error (FileError.ofIOError e)

/-- The variables that settings are taken from. -/
def readEnvironment : IO Environment := do
  let names := ["TACC_WORKERS", "TACC_SEQUENTIAL", "TACC_DEADLINE_MS", "TACC_TABLES"]
  let vars ← names.mapM fun name => do return (name, ← IO.getEnv name)
  return fun name => (vars.lookup name).join

/-- All files that a command may open. -/
def readFiles (paths : List String) : IO OpenFile := do
  let opened ← paths.mapM fun path => do return (path, ← openPath path)
  return fun path => (opened.lookup path).getD (.error .notFound)

end ThreeAddress

open ThreeAddress in
def main (args : List String) : IO UInt32 := do
  let env ← readEnvironment
  let files ← readFiles ((Invocation.ofArguments args).files ++ (env "TACC_TABLES").toList)
  let e := Command.compile args env files
  IO.print e.stdout
  IO.eprint e.stderr
  return e.status.toUInt32
