import Std.Data.TreeSet
import ThreeAddress.Analysis.Declaration

namespace ThreeAddress

/-- What a token in the place of a type stands for. -/
inductive TypeName where
  | builtin (ty : Ty)
  | alias (s : Symbol)
  | other (s : Symbol)
  | unknown
  deriving DecidableEq, Repr

namespace TypeName

def ofToken (symbols : SymbolTable) (t : Token) : TypeName :=
  match Ty.ofKind? t.kind with
  | some ty => .builtin ty
  | none =>
    match symbols.get? t.lexeme with
    | none => .unknown
    | some s => if s.kind = .type then .alias s else .other s

def unknownType (t : Token) : Diagnostic := .semantic s!"unknown type `{t.lexeme}`" t

def notType (t : Token) (s : Symbol) : Diagnostic :=
  .semantic s!"`{t.lexeme}` is {s.kind.describe}, not a type" t

/-- The type of a token once aliases have their types. -/
def lookup (symbols : SymbolTable) (t : Token) : Except Diagnostic (Option Ty) :=
  match ofToken symbols t with
  | .builtin ty => .ok (some ty)
  | .alias s => .ok s.ty
  | .other s => .error (notType t s)
  | .unknown => .error (unknownType t)

end TypeName

/-- The token behind an alias, with the number of its file. -/
structure AliasTarget where
  token : Token
  origin : Nat
  deriving DecidableEq, Repr

/-- Aliases on a way, last first, and the same as a set. -/
structure AliasPath where
  names : List String
  members : Std.TreeSet String
  mem_members : ∀ name, name ∈ members ↔ name ∈ names

namespace AliasPath

def empty : AliasPath := ⟨[], {}, by simp⟩

def push (name : String) (p : AliasPath) : AliasPath where
  names := name :: p.names
  members := p.members.insert name
  mem_members other := by
    rw [Std.TreeSet.mem_insert, Std.compare_eq_iff_eq, p.mem_members, List.mem_cons]
    exact or_congr_left eq_comm

@[simp] theorem names_push (name : String) (p : AliasPath) :
    (p.push name).names = name :: p.names := rfl

end AliasPath

/-- Where a chain of aliases ends: its type, what is wrong with it, and the aliases on the way,
last first. -/
structure AliasWalk where
  ty : Option Ty
  fault : Option Fault
  path : List String

/-- What aliases stand for: the symbols, the targets of the aliases, and the aliases that are
resolved. -/
structure Aliases where
  symbols : SymbolTable
  targets : Std.TreeMap String AliasTarget
  known : Std.TreeMap String (Option Ty)

namespace Aliases

def cyclic (s : Symbol) : Diagnostic :=
  .error .semantic s!"cyclic type alias `{s.name}`" (.site s.site)

/-- Aliases of accepted declarations, none of them resolved. -/
def ofAccepted (symbols : SymbolTable) (accepted : List Accepted) : Aliases where
  symbols
  targets := accepted.foldl (fun m a =>
    match a.declaration with
    | .alias name target => m.insert name.lexeme ⟨target, a.origin⟩
    | _ => m) {}
  known := {}

/-- Follows a token of a file through aliases that are not resolved. A path has each alias once, so
that as many steps as there are aliases are enough. -/
def walk (a : Aliases) : Nat → AliasPath → Nat → Token → AliasWalk
  | fuel, path, origin, t =>
    match TypeName.ofToken a.symbols t with
    | .builtin ty => ⟨some ty, none, path.names⟩
    | .unknown => ⟨none, some ⟨origin, TypeName.unknownType t⟩, path.names⟩
    | .other s =>
      let d := (TypeName.notType t s).withNote s!"`{t.lexeme}` is declared here" s.site
      ⟨none, some ⟨origin, d⟩, path.names⟩
    | .alias s =>
      match a.known[s.name]?, a.targets[s.name]?, fuel with
      | some ty, _, _ => ⟨ty, none, path.names⟩
      | none, some target, fuel + 1 =>
        if s.name ∈ path.members then ⟨none, some ⟨target.origin, cyclic s⟩, path.names⟩
        else walk a fuel (path.push s.name) target.origin target.token
      | none, _, _ => ⟨none, none, path.names⟩

/-- All aliases on the way get the type at the end of the chain. -/
def learn (a : Aliases) (w : AliasWalk) : Aliases :=
  { a with known := w.path.foldl (fun m name => m.insert name w.ty) a.known }

/-- The type of a token, and a problem if one is found on the way. -/
def resolve (a : Aliases) (origin : Nat) (t : Token) : Option Ty × List Fault × Aliases :=
  let w := a.walk (a.targets.size + 1) .empty origin t
  (w.ty, w.fault.toList, a.learn w)

/-- The type of an alias by its name. -/
def resolveAlias (a : Aliases) (name : String) : Option Ty × List Fault × Aliases :=
  match a.known[name]?, a.targets[name]? with
  | some ty, _ => (ty, [], a)
  | none, some target =>
    let w := a.walk a.targets.size (AliasPath.empty.push name) target.origin target.token
    (w.ty, w.fault.toList, a.learn w)
  | none, none => (none, [], a)

/-- The types of tokens from left to right. -/
def resolveAll (a : Aliases) (origin : Nat) : List Token → List (Option Ty) × List Fault × Aliases
  | [] => ([], [], a)
  | t :: ts =>
    let (ty, faults, a) := a.resolve origin t
    let (tys, more, a) := a.resolveAll origin ts
    (ty :: tys, faults ++ more, a)

end Aliases

end ThreeAddress
