import ThreeAddress.Tree.Builder
import ThreeAddress.Tree.Grammar

namespace ThreeAddress

inductive SyntaxError where
  | unexpected (site : Site) (found : TokenKind) (expected : List TokenKind)
  | unexpectedEnd (file : String)
  | inconsistent (site : Site) (state : State)
  deriving DecidableEq, Repr

namespace SyntaxError

def choices : List TokenKind → String
  | [] => "nothing"
  | [k] => k.shown
  | ks => "one of " ++ ", ".intercalate (ks.map TokenKind.shown)

/-- The message without its place. -/
def detail : SyntaxError → String
  | .unexpected _ found expected => s!"unexpected {found.shown}, expected {choices expected}"
  | .unexpectedEnd _ => "input ended before the end-of-file token"
  | .inconsistent _ state => s!"entering {state.name} leaves the tree inconsistent"

def site? : SyntaxError → Option Site
  | .unexpected site _ _ => some site
  | .unexpectedEnd _ => none
  | .inconsistent site _ => some site

def expected : SyntaxError → List TokenKind
  | .unexpected _ _ ks => ks
  | _ => []

def message (e : SyntaxError) : String :=
  match e with
  | .unexpected site _ _ => s!"{site.text}: {e.detail}"
  | .unexpectedEnd file => s!"{file}: {e.detail}"
  | .inconsistent site _ => s!"{site.text}: {e.detail}"

end SyntaxError

/-- A state and the tree built so far. -/
structure Parser where
  state : State
  builder : Builder

namespace Parser

def start : Parser := ⟨.start, .empty⟩

/-- Reads one token of a file. -/
def step (table : TransitionTable) (file : String) (p : Parser) (t : Token) :
    Except SyntaxError Parser :=
  let site : Site := { t.site with file := file }
  match table.next p.state t.kind with
  | none => .error (.unexpected site t.kind (table.expected p.state))
  | some s =>
    match p.builder.enter s t with
    | none => .error (.inconsistent site s)
    | some b =>
      if s = .finished ∧ b.settled = false then .error (.inconsistent site s)
      else .ok ⟨s, b⟩

/-- Reads tokens up to the last state; what follows is not looked at. -/
def run (table : TransitionTable) (file : String) : Parser → List Token → Except SyntaxError Tree
  | _, [] => .error (.unexpectedEnd file)
  | p, t :: ts =>
    match step table file p t with
    | .error e => .error e
    | .ok p' =>
      if p'.state = .finished then .ok ⟨file, p'.builder.items.reverse⟩
      else run table file p' ts

end Parser

/-- The tree of a list of tokens. -/
def parse (table : TransitionTable) (tokens : List Token) : Except SyntaxError Tree :=
  Parser.start.run table (Token.fileOf tokens) tokens

end ThreeAddress
