import Mathlib.Data.List.Forall2
import ThreeAddress.Symbol
import ThreeAddress.Tree.View

namespace ThreeAddress

/-- The number that an integer literal writes, however large. -/
def Numeral.magnitude? (s : List Char) : Option Nat :=
  let (digits, radix) := splitRadix (splitSuffix s).1
  digitsValue radix digits

/-- An integer literal is below 2^64. -/
def Token.InRange (t : Token) : Prop :=
  t.kind = .number → Numeral.isFloat t.lexeme.toList = false →
    ∃ v < UInt64.size, Numeral.magnitude? t.lexeme.toList = some v

/-- A token that a source can use as a value. -/
inductive Token.IsValue (t : Token) : Prop
  | name (hk : t.kind = .ident) (hc : ':' ∉ t.lexeme.toList) : IsValue t
  | literal {ty : Ty} (h : Ty.ofLiteral? t = some ty)
    (hn : t.kind = .number → Numeral.check t.lexeme.toList = .ok ()) : IsValue t

namespace Expr

/-- The tokens that are read as values. -/
def values : Expr → List Token
  | .literal t => [t]
  | .name t => [t]
  | .call _ args => args
  | .binary _ _ lhs rhs => lhs.values ++ rhs.values

def callees : Expr → List Token
  | .literal _ => []
  | .name _ => []
  | .call f _ => [f]
  | .binary _ _ lhs rhs => lhs.callees ++ rhs.callees

end Expr

namespace Stmt

def values : Stmt → List Token
  | .local _ _ none => []
  | .local _ _ (some e) => e.values
  | .assign _ e => e.values
  | .call _ args => args
  | .ret _ e => e.values

/-- The tokens that are names of what is declared, assigned to or called. -/
def names : Stmt → List Token
  | .local name _ none => [name]
  | .local name _ (some e) => name :: e.callees
  | .assign target e => target :: e.callees
  | .call f _ => [f]
  | .ret _ e => e.callees

/-- The local that a statement declares, and its type. -/
def declared : Stmt → List (Token × Token)
  | .local name type _ => [(name, type)]
  | _ => []

end Stmt

/-- A function with its statements. -/
structure Routine where
  name : Token
  params : List Param
  ret : Token
  body : List Stmt

/-- The function that a parsed one reads as. -/
def Function.routine (f : Function) : Except Malformed Routine := do
  let body ← f.body.mapM Stmt.ofNode
  return ⟨f.name, f.params, f.ret, body⟩

namespace Routine

/-- Parameters and locals with their types, in order. -/
def bindings (r : Routine) : List (Token × Token) :=
  r.params.map (fun q => (q.name, q.type)) ++ r.body.flatMap Stmt.declared

end Routine

inductive Decl where
  | alias (name target : Token)
  | global (name type : Token) (init : Option Token)
  | routine (r : Routine)

namespace Decl

def name : Decl → Token
  | .alias name _ => name
  | .global name _ _ => name
  | .routine r => r.name

/-- The tokens in the place of a type. -/
def types : Decl → List Token
  | .alias _ target => [target]
  | .global _ type _ => [type]
  | .routine r => r.ret :: r.bindings.map (·.2)

def values : Decl → List Token
  | .alias _ _ => []
  | .global _ _ init => init.toList
  | .routine r => r.body.flatMap Stmt.values

def names : Decl → List Token
  | .alias name _ => [name]
  | .global name _ _ => [name]
  | .routine r => r.name :: r.params.map (·.name) ++ r.body.flatMap Stmt.names

def ofNode (n : Node) : Except Malformed Decl := do
  match ← Item.ofNode n with
  | .type name target => return .alias name target
  | .global name type init => return .global name type init
  | .func f => return .routine (← f.routine)
  | .finish _ => .error (.node n)

end Decl

/-- The declarations of a batch, file by file. -/
abbrev Program := List Decl

def Tree.program (t : Tree) : Except Malformed Program := t.declarations.mapM Decl.ofNode

namespace Program

variable (p : Program)

/-- A token stands for a type: it is the word for it, or names an alias whose target does. -/
inductive Denotes : Token → Ty → Prop
  | builtin {t : Token} {ty : Ty} (h : Ty.ofKind? t.kind = some ty) : Denotes t ty
  | alias {t name target : Token} {ty : Ty} (hk : Ty.ofKind? t.kind = none)
    (hd : .alias name target ∈ p) (hn : name.lexeme = t.lexeme) (h : Denotes target ty) :
    Denotes t ty

/-- Parameters and locals in scope, with their types. -/
abbrev Locals := List (String × Ty)

/-- A name stands for a variable: for the local in scope, else for the global. -/
inductive Variable (Γ : Locals) (x : String) : Ty → Prop
  | local {ty : Ty} (h : Γ.lookup x = some ty) : Variable Γ x ty
  | global {name type : Token} {init : Option Token} {ty : Ty} (h : Γ.lookup x = none)
    (hd : .global name type init ∈ p) (hn : name.lexeme = x) (ht : Denotes p type ty) :
    Variable Γ x ty

/-- The type of a token that is used as a value. -/
inductive Value (Γ : Locals) (t : Token) : Ty → Prop
  | literal {ty : Ty} (h : Ty.ofLiteral? t = some ty) : Value Γ t ty
  | variable {ty : Ty} (hk : t.kind = .ident) (h : Variable p Γ t.lexeme ty) : Value Γ t ty

inductive Typed (Γ : Locals) : Expr → Ty → Prop
  | literal {t : Token} {ty : Ty} (h : Value p Γ t ty) : Typed Γ (.literal t) ty
  | name {t : Token} {ty : Ty} (h : Value p Γ t ty) : Typed Γ (.name t) ty
  | call {f : Token} {args : List Token} {r : Routine} {ty : Ty} (hf : Γ.lookup f.lexeme = none)
    (hd : .routine r ∈ p) (hn : r.name.lexeme = f.lexeme)
    (ha : List.Forall₂ (fun a q => ∃ ty, Value p Γ a ty ∧ Denotes p q.type ty) args r.params)
    (ht : Denotes p r.ret ty) : Typed Γ (.call f args) ty
  | binary {op : Operator} {t : Token} {lhs rhs : Expr} {l r ty : Ty} (hl : Typed Γ lhs l)
    (hr : Typed Γ rhs r) (h : op.result l r = some ty) : Typed Γ (.binary op t lhs rhs) ty

/-- A statement of a function fits the scope in front of it and leads to the scope behind it. -/
inductive Fits (ret : Token) (Γ : Locals) : Stmt → Locals → Prop
  | declare {name type : Token} {ty : Ty} (ht : Denotes p type ty) :
    Fits ret Γ (.local name type none) (Γ ++ [(name.lexeme, ty)])
  | init {name type : Token} {e : Expr} {ty : Ty} (ht : Denotes p type ty)
    (he : Typed p Γ e ty) : Fits ret Γ (.local name type (some e)) (Γ ++ [(name.lexeme, ty)])
  | assign {target : Token} {e : Expr} {ty : Ty} (ht : Variable p Γ target.lexeme ty)
    (he : Typed p Γ e ty) : Fits ret Γ (.assign target e) Γ
  | call {f : Token} {args : List Token} {ty : Ty} (h : Typed p Γ (.call f args) ty) :
    Fits ret Γ (.call f args) Γ
  | ret {keyword : Token} {e : Expr} {ty : Ty} (ht : Denotes p ret ty) (he : Typed p Γ e ty) :
    Fits ret Γ (.ret keyword e) Γ

/-- Statements fit one after the other. -/
inductive BodyFits (ret : Token) : Locals → List Stmt → Prop
  | nil {Γ : Locals} : BodyFits ret Γ []
  | cons {Γ Γ' : Locals} {s : Stmt} {ss : List Stmt} (h : Fits p ret Γ s Γ')
    (hs : BodyFits ret Γ' ss) : BodyFits ret Γ (s :: ss)

/-- The scope that parameters open. -/
def Opens (params : List Param) (Γ : Locals) : Prop :=
  List.Forall₂ (fun q v => v.1 = q.name.lexeme ∧ Denotes p q.type v.2) params Γ

structure WellFormed : Prop where
  names : (p.map (·.name.lexeme)).Nodup
  bindings : ∀ r, .routine r ∈ p → (r.bindings.map (·.1.lexeme)).Nodup
  types : ∀ d ∈ p, ∀ t ∈ d.types, ∃ ty, Denotes p t ty
  literals : ∀ d ∈ p, ∀ t ∈ d.values, t.InRange
  inits : ∀ name type init, .global name type (some init) ∈ p →
    ∃ ty, Denotes p type ty ∧ Ty.ofLiteral? init = some ty
  bodies : ∀ r, .routine r ∈ p → ∃ Γ, Opens p r.params Γ ∧ BodyFits p r.ret Γ r.body

/-- Names and values are as a source writes them. -/
structure Written : Prop where
  names : ∀ d ∈ p, ∀ t ∈ d.names, ':' ∉ t.lexeme.toList
  values : ∀ d ∈ p, ∀ t ∈ d.values, t.IsValue
  inits : ∀ name type init, .global name type (some init) ∈ p →
    ∃ ty, Ty.ofLiteral? init = some ty

end Program

end ThreeAddress
