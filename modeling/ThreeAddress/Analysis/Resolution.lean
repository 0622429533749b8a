import ThreeAddress.Analysis.Literal
import ThreeAddress.Analysis.TypeName

namespace ThreeAddress

structure ResolvedTypes where
  key : String
  ty : Option Ty
  params : List (Option Ty)
  deriving DecidableEq, Repr

structure Resolution where
  aliases : Aliases
  signatures : Std.TreeMap String (Array (Option Ty))

namespace Resolution

def start (m : Merged) : Resolution := ⟨.ofAccepted m.symbols m.accepted, {}⟩

/-- The first value of a global, if its type is known. -/
def checkInit (name : Token) (ty : Option Ty) (init : Option Token) : List Diagnostic :=
  match ty, init with
  | some ty, some init =>
    literalFaults init ++
      mismatch (some ty) (Ty.ofLiteral? init) (initMismatch name.lexeme init)
  | _, _ => []

def step (r : Resolution) (d : Accepted) : ResolvedTypes × List Fault × Resolution :=
  let key := d.declaration.key
  match d.declaration with
  | .alias name _ =>
    let (ty, faults, aliases) := r.aliases.resolveAlias name.lexeme
    (⟨key, ty, []⟩, faults, { r with aliases })
  | .global name type init =>
    let (ty, faults, aliases) := r.aliases.resolve d.origin type
    let more := (checkInit name ty init).map (⟨d.origin, ·⟩)
    (⟨key, ty, []⟩, faults ++ more, { r with aliases })
  | .function name ret params =>
    let (ty, faults, aliases) := r.aliases.resolve d.origin ret
    let (tys, more, aliases) := aliases.resolveAll d.origin params
    (⟨key, ty, tys⟩, faults ++ more, ⟨aliases, r.signatures.insert name.lexeme tys.toArray⟩)
  | .param owner slot _ _ =>
    let ty := (r.signatures[owner.lexeme]?.bind (·[slot]?)).join
    (⟨key, ty, []⟩, [], r)

def steps (r : Resolution) : List Accepted → List (ResolvedTypes × List Fault)
  | [] => []
  | d :: ds =>
    let (types, faults, r) := r.step d
    (types, faults) :: r.steps ds

end Resolution

namespace Merged

/-- The types of all accepted declarations, each with what is wrong with it. -/
def resolved (m : Merged) : List (ResolvedTypes × List Fault) :=
  (Resolution.start m).steps m.accepted

/-- The symbols with their types. -/
def typedSymbols (m : Merged) : SymbolTable :=
  m.resolved.foldl (fun t r => t.setTypes r.1.key r.1.ty r.1.params) m.symbols

end Merged

end ThreeAddress
