import ThreeAddress.Code.Phase
import ThreeAddress.Json.Printer
import ThreeAddress.Json.Reader
import ThreeAddress.Tree.Grammar

namespace ThreeAddress

structure TableSet where
  transition : TransitionTable
  generation : GenerationTable

namespace TableSet

/-- The tables of the language. -/
def built : TableSet := ⟨Grammar.table, Phase.table⟩

/-- Whether two pairs of tables have the same entries. -/
def same (a b : TableSet) : Bool :=
  a.transition.rows == b.transition.rows && a.generation.rows == b.generation.rows

end TableSet

/-- The contents of a table file, before the lists and cells are checked. -/
structure TableFile where
  kinds : List String
  states : List String
  phases : List String
  transition : List (List Nat)
  generation : List (List Nat)
  deriving DecidableEq, Repr

namespace TableFile

def keys : List String := ["kinds", "states", "gen_states", "transition", "generation"]

def ofTables (t : TableSet) : TableFile where
  kinds := Enumerated.names TokenKind
  states := Enumerated.names State
  phases := Enumerated.names Phase
  transition := t.transition.rows
  generation := t.generation.rows

def rowsJson (rows : List (List Nat)) : Json :=
  .array (rows.map fun cells => .array (cells.map .ofNat))

def values (f : TableFile) : List Json :=
  [.ofTexts f.kinds, .ofTexts f.states, .ofTexts f.phases, rowsJson f.transition,
    rowsJson f.generation]

def json (f : TableFile) : Json := .ofObject (keys.zip f.values)

def text (f : TableFile) : String := f.json.compact

/-- A list of texts. -/
def texts? (j : Json) : Option (List String) := do
  let es ← j.elements?
  es.mapM Json.text?

/-- A cell: a number that fits in 16 bits. -/
def cell? (j : Json) : Option Nat := j.nat?.filter (· < 0x10000)

/-- Rows of the given width. -/
def rows? (width : Nat) (j : Json) : Option (List (List Nat)) := do
  let rows ← j.elements?
  rows.mapM fun row => do
    let cells ← row.elements?
    if cells.length = width then cells.mapM cell? else none

def ofValues? : List Json → Option TableFile
  | [kinds, states, phases, transition, generation] => do
    return ⟨← texts? kinds, ← texts? states, ← texts? phases,
      ← rows? (Enumerated.count TokenKind) transition, ← rows? (Enumerated.count State) generation⟩
  | _ => none

/-- The one member of a key. -/
def member? (members : List (Option String × Json)) (key : String) : Option Json :=
  match members.filter fun m => m.1 == some key with
  | [m] => some m.2
  | _ => none

/-- Reads the values by their keys, or in the order of the keys from a list. Members of other keys
are passed over. -/
def ofJson? : Json → Option TableFile
  | .array values => ofValues? values
  | .object members =>
    if members.all (·.1.isSome) then (keys.mapM (member? members)).bind ofValues? else none
  | _ => none

/-- The tables of a file whose lists are those of the language. -/
def tables (f : TableFile) : Except TableError TableSet :=
  if f.kinds ≠ Enumerated.names TokenKind then .error (.mismatch .transition "token kind")
  else if f.states ≠ Enumerated.names State then .error (.mismatch .transition "state")
  else if f.phases ≠ Enumerated.names Phase then .error (.mismatch .generation "generation state")
  else do
    let transition ← Table.ofRows .transition f.transition
    let generation ← Table.ofRows .generation f.generation
    return ⟨transition, generation⟩

end TableFile

namespace TableSet

def text (t : TableSet) : String := (TableFile.ofTables t).text

/-- Reads the bytes of a table file. -/
def ofBytes (bytes : List UInt8) : Except TableError TableSet :=
  match (Json.parse? bytes).bind TableFile.ofJson? with
  | some f => f.tables
  | none => .error .malformed

end TableSet

end ThreeAddress
