import ThreeAddress.Diagnostic
import ThreeAddress.Symbol
import ThreeAddress.Tree.View

namespace ThreeAddress

/-- A declaration by its tokens. A parameter knows the name of its function and its place in the
function's list. -/
inductive Declaration where
  | alias (name target : Token)
  | global (name type : Token) (init : Option Token)
  | function (name ret : Token) (params : List Token)
  | param (owner : Token) (slot : Nat) (name type : Token)
  deriving DecidableEq, Repr

namespace Declaration

/-- The token that names what is declared. -/
def site : Declaration → Token
  | .alias name _ => name
  | .global name _ _ => name
  | .function name _ _ => name
  | .param _ _ name _ => name

def kind : Declaration → SymbolKind
  | .alias _ _ => .type
  | .global _ _ _ => .variable
  | .function _ _ _ => .function
  | .param _ _ _ _ => .variable

/-- The name in the symbol table. -/
def key : Declaration → String
  | .param owner _ name _ => Symbol.qualify owner.lexeme name.lexeme
  | d => d.site.lexeme

def symbol (d : Declaration) : Symbol := .declared d.key d.kind d.site.site

/-- A function and its parameters. -/
def ofFunction (f : Function) : List Declaration :=
  .function f.name f.ret (f.params.map (·.type)) ::
    f.params.zipIdx.map fun (p, slot) => .param f.name slot p.name p.type

def ofItem : Item → List Declaration
  | .type name target => [.alias name target]
  | .global name type init => [.global name type init]
  | .func f => ofFunction f
  | .finish _ => []

end Declaration

def Malformed.diagnostic (m : Malformed) : Diagnostic :=
  .error .semantic m.detail (.site m.site)

/-- A second declaration of a name, with the place of the first. -/
def duplicate (name : Token) (first : Site) : Diagnostic :=
  (Diagnostic.semantic s!"duplicate declaration of `{name.lexeme}`" name).withNote
    s!"`{name.lexeme}` was first declared here" first

/-- What a file brings into a batch: a declaration, or an item that cannot be read. -/
inductive Finding where
  | unreadable (m : Malformed)
  | declared (d : Declaration)
  deriving DecidableEq, Repr

/-- Items that cannot be read come before the declarations of their file. -/
def Tree.findings (t : Tree) : List Finding :=
  let items := t.declarations.map Item.ofNode
  (items.filterMap fun
      | .ok _ => none
      | .error m => some (.unreadable m)) ++
    items.flatMap fun
      | .ok item => (Declaration.ofItem item).map .declared
      | .error _ => []

/-- A problem with the number of the file that it belongs to. -/
structure Fault where
  origin : Nat
  diagnostic : Diagnostic
  deriving DecidableEq, Repr

/-- A declaration with the number of its file. -/
structure Accepted where
  origin : Nat
  declaration : Declaration
  deriving DecidableEq, Repr

/-- The declarations of a batch that count, and what is wrong with the others. -/
structure Merged where
  symbols : SymbolTable
  accepted : List Accepted
  faults : List Fault

namespace Merged

/-- Whether a declaration takes part. A parameter does if its function has the name that it goes
by; all else does. -/
def counts (symbols : SymbolTable) : Declaration → Bool
  | .param owner _ _ _ => ((symbols.get? owner.lexeme).map (·.isFunctionAt owner)).getD false
  | _ => true

/-- Declares a symbol, unless its name is taken. -/
def enroll (symbols : SymbolTable) (d : Declaration) : Except Diagnostic SymbolTable :=
  (symbols.declare d.symbol).mapError fun first => duplicate d.site first.site

/-- Merges findings, each with the number of its file, into a table. -/
def merge : SymbolTable → List (Nat × Finding) → Merged
  | symbols, [] => ⟨symbols, [], []⟩
  | symbols, (i, .unreadable m) :: rest =>
    let merged := merge symbols rest
    { merged with faults := ⟨i, m.diagnostic⟩ :: merged.faults }
  | symbols, (i, .declared d) :: rest =>
    if counts symbols d then
      match enroll symbols d with
      | .ok symbols =>
        let merged := merge symbols rest
        { merged with accepted := ⟨i, d⟩ :: merged.accepted }
      | .error fault =>
        let merged := merge symbols rest
        { merged with faults := ⟨i, fault⟩ :: merged.faults }
    else merge symbols rest

def ofFiles (files : List (Nat × Tree)) : Merged :=
  merge .empty (files.flatMap fun (i, t) => t.findings.map (i, ·))

end Merged

end ThreeAddress
