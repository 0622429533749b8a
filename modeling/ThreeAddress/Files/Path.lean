namespace ThreeAddress.Path

/-- The parts between slashes, empty ones included. -/
def splitChars : List Char → List (List Char)
  | [] => [[]]
  | '/' :: cs => [] :: splitChars cs
  | c :: cs =>
    match splitChars cs with
    | [] => [[c]]
    | part :: parts => (c :: part) :: parts

def split (path : String) : List String := (splitChars path.toList).map String.ofList

def isAbsolute (path : String) : Bool := path.toList.head? == some '/'

/-- The parts to follow. A dot leads nowhere and is kept, because it asks for a directory. -/
def steps (path : String) : List String := (split path).filter (· != "")

/-- Whether a path can only be that of a directory: it ends in a slash. -/
def endsOpen (path : String) : Bool := (split path).getLast? == some ""

/-- The path without its last part; a dot counts as a part only at the start. -/
def parent? (path : String) : Option String :=
  let parts := split path
  let counted := parts.zipIdx.filter fun (p, i) => p != "" && (p != "." || i == 0)
  match counted.reverse with
  | [] => none
  | [_] => some (if isAbsolute path then "/" else "")
  | _ :: (_, i) :: _ => some ("/".intercalate (parts.take (i + 1)))

/-- A name in a directory. -/
def join (directory name : String) : String := s!"{directory}/{name}"

end ThreeAddress.Path
