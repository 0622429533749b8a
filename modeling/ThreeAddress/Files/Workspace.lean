import Std.Data.TreeMap
import ThreeAddress.Files.Path
import ThreeAddress.Token.Run

namespace ThreeAddress

inductive FileError where
  | notFound
  | exists
  | notDirectory
  | isDirectory
  | nameTooLong
  | hasNul
  | other (detail : String) (code : Nat)
  deriving DecidableEq, Repr

def FileError.message : FileError → String
  | .notFound => "No such file or directory (os error 2)"
  | .exists => "File exists (os error 17)"
  | .notDirectory => "Not a directory (os error 20)"
  | .isDirectory => "Is a directory (os error 21)"
  | .nameTooLong => "File name too long (os error 36)"
  | .hasNul => "file name contained an unexpected NUL byte"
  | .other detail code => s!"{detail} (os error {code})"

/-- What opening a path gives. -/
abbrev OpenFile := String → Except FileError Source

/-- Names on the way from the working directory, innermost first. A way that leaves it starts with
`..` for each directory above, or with `/`. -/
abbrev Key := List String

def Key.up : Key → Key
  | [] => [".."]
  | ".." :: k => ".." :: ".." :: k
  | ["/"] => ["/"]
  | _ :: k => k

inductive Entry where
  | file (bytes : List UInt8)
  | directory
  deriving DecidableEq, Repr

structure Workspace where
  entries : Std.TreeMap Key Entry

/-- Where a path leads: to an entry, or to a free name in a directory. -/
inductive Target where
  | entry (key : Key) (e : Entry)
  | vacant (key : Key)
  deriving DecidableEq, Repr

namespace Workspace

def empty : Workspace := ⟨{}⟩

def get? (w : Workspace) (k : Key) : Option Entry :=
  if k.all (· == "..") || k == ["/"] then some .directory else w.entries[k]?

def set (w : Workspace) (k : Key) (e : Entry) : Workspace := ⟨w.entries.insert k e⟩

def erase (w : Workspace) (k : Key) : Workspace := ⟨w.entries.erase k⟩

/-- The longest name and the longest path, in bytes. -/
def nameLimit : Nat := 255

def pathLimit : Nat := 4095

/-- Follows parts from a directory. What stands before another part, a dot included, has to be a
directory. -/
def follow (w : Workspace) : Key → List String → Except FileError Target
  | k, [] => .ok (.entry k .directory)
  | k, "." :: rest => follow w k rest
  | k, ".." :: rest => follow w k.up rest
  | k, name :: rest =>
    if nameLimit < name.utf8ByteSize then .error .nameTooLong
    else
      match w.get? (name :: k), rest with
      | some .directory, _ => follow w (name :: k) rest
      | some (.file bytes), [] => .ok (.entry (name :: k) (.file bytes))
      | some (.file _), _ => .error .notDirectory
      | none, [] => .ok (.vacant (name :: k))
      | none, _ => .error .notFound

/-- Follows parts of a path from where the path starts. -/
def followFrom (w : Workspace) (path : String) (parts : List String) : Except FileError Target :=
  if path.toList.contains '\x00' then .error .hasNul
  else if path.isEmpty then .error .notFound
  else if pathLimit < path.utf8ByteSize then .error .nameTooLong
  else w.follow (if Path.isAbsolute path then ["/"] else []) parts

def locate (w : Workspace) (path : String) : Except FileError Target :=
  w.followFrom path (Path.steps path)

/-- The entry at a path. -/
def find (w : Workspace) (path : String) : Except FileError (Key × Entry) :=
  match w.locate path with
  | .error e => .error e
  | .ok (.vacant _) => .error .notFound
  | .ok (.entry k .directory) => .ok (k, .directory)
  | .ok (.entry k (.file bytes)) =>
    if Path.endsOpen path then .error .notDirectory else .ok (k, .file bytes)

def isDirectory (w : Workspace) (path : String) : Bool :=
  match w.find path with
  | .ok (_, .directory) => true
  | _ => false

/-- Opens a path. A directory can be opened and not read. -/
def openFile (w : Workspace) : OpenFile := fun path =>
  match w.find path with
  | .error e => .error e
  | .ok (_, .directory) => .ok ⟨[], some FileError.isDirectory.message⟩
  | .ok (_, .file bytes) => .ok (.ofBytes bytes)

/-- Writes a file, in a directory that exists. Of a path that ends in a slash, the last name is not
looked at. -/
def write (w : Workspace) (path : String) (bytes : List UInt8) : Except FileError Workspace :=
  let parts := Path.steps path
  if Path.endsOpen path then
    match w.followFrom path (parts.dropLast ++ ["."]) with
    | .error e => .error e
    | .ok _ => .error .isDirectory
  else
    match w.followFrom path parts with
    | .error e => .error e
    | .ok (.entry _ .directory) => .error .isDirectory
    | .ok (.entry k (.file _)) | .ok (.vacant k) => .ok (w.set k (.file bytes))

/-- Removes a file. -/
def remove? (w : Workspace) (path : String) : Option Workspace :=
  match w.find path with
  | .ok (k, .file _) => some (w.erase k)
  | _ => none

def makeDirectory (w : Workspace) (path : String) : Except FileError Workspace :=
  match w.locate path with
  | .error e => .error e
  | .ok (.entry _ _) => .error .exists
  | .ok (.vacant k) => .ok (w.set k .directory)

/-- Makes a directory and those above it that are missing. What was made stays when a later one
fails. A path has fewer parts above it than characters. -/
def makeDirectoriesWith (w : Workspace) : Nat → String → Except FileError Unit × Workspace
  | 0, _ => (.ok (), w)
  | fuel + 1, path =>
    if path.isEmpty then (.ok (), w)
    else
      match w.makeDirectory path with
      | .ok w => (.ok (), w)
      | .error .notFound =>
        match makeDirectoriesWith w fuel ((Path.parent? path).getD "") with
        | (.error e, w) => (.error e, w)
        | (.ok _, w) =>
          if w.isDirectory path then (.ok (), w)
          else
            match w.makeDirectory path with
            | .ok w => (.ok (), w)
            | .error e => (.error e, w)
      | .error e => (if w.isDirectory path then .ok () else .error e, w)

def makeDirectories (w : Workspace) (path : String) : Except FileError Unit × Workspace :=
  w.makeDirectoriesWith (path.length + 1) path

/-- The sizes of a directory and of a file. -/
def sizeOf? (w : Workspace) (path : String) : Option Nat :=
  match w.find path with
  | .ok (_, .directory) => some 4096
  | .ok (_, .file bytes) => some bytes.length
  | .error _ => none

end Workspace

end ThreeAddress
