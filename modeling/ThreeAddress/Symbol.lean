import Std.Data.TreeMap
import ThreeAddress.Ty

namespace ThreeAddress

inductive SymbolKind where
  | type
  | variable
  | function
  deriving DecidableEq, Repr

namespace SymbolKind

def text : SymbolKind → String
  | .type => "type"
  | .variable => "variable"
  | .function => "function"

def describe (k : SymbolKind) : String := s!"a {k.text}"

end SymbolKind

/-- The type is that of a variable, of an alias, or of a function's result; it is missing until it
is resolved and stays missing if that fails. -/
structure Symbol where
  name : String
  kind : SymbolKind
  ty : Option Ty
  params : List (Option Ty)
  site : Site
  deriving DecidableEq, Repr

namespace Symbol

/-- A symbol whose types are not resolved. -/
def declared (name : String) (kind : SymbolKind) (site : Site) : Symbol :=
  ⟨name, kind, none, [], site⟩

/-- Whether the symbol is the function that a token names where it is declared. -/
def isFunctionAt (s : Symbol) (t : Token) : Bool := s.kind == .function && s.site == t.site

/-- The name of a parameter or local of a function. -/
def qualify (func name : String) : String := s!"{func}::{name}"

end Symbol

structure SymbolTable where
  entries : Std.TreeMap String Symbol

namespace SymbolTable

def empty : SymbolTable := ⟨{}⟩

def get? (t : SymbolTable) (name : String) : Option Symbol := t.entries[name]?

def local? (t : SymbolTable) (func name : String) : Option Symbol :=
  t.get? (Symbol.qualify func name)

/-- Adds a symbol, or gives the one that has its name. -/
def declare (t : SymbolTable) (s : Symbol) : Except Symbol SymbolTable :=
  match t.get? s.name with
  | some first => .error first
  | none => .ok ⟨t.entries.insert s.name s⟩

/-- Adds a symbol unless its name is taken. -/
def declareNew (t : SymbolTable) (s : Symbol) : SymbolTable :=
  match t.declare s with
  | .ok t' => t'
  | .error _ => t

/-- Records the types of a symbol. -/
def setTypes (t : SymbolTable) (name : String) (ty : Option Ty) (params : List (Option Ty)) :
    SymbolTable :=
  match t.get? name with
  | some s => ⟨t.entries.insert name { s with ty := ty, params := params }⟩
  | none => t

def size (t : SymbolTable) : Nat := t.entries.size

/-- The symbols by name. -/
def toList (t : SymbolTable) : List Symbol := t.entries.values

@[simp] theorem get?_empty (name : String) : empty.get? name = none := by
  simp [empty, get?]

theorem get?_insert (t : SymbolTable) (key : String) (s : Symbol) (name : String) :
    get? ⟨t.entries.insert key s⟩ name = if key = name then some s else t.get? name := by
  simp [get?, Std.TreeMap.getElem?_insert]

theorem declareNew_of_some {t : SymbolTable} {s first : Symbol} (h : t.get? s.name = some first) :
    t.declareNew s = t := by
  simp [declareNew, declare, h]

theorem declareNew_of_none {t : SymbolTable} {s : Symbol} (h : t.get? s.name = none) :
    t.declareNew s = ⟨t.entries.insert s.name s⟩ := by
  simp [declareNew, declare, h]

theorem get?_declareNew (t : SymbolTable) (s : Symbol) (name : String) :
    (t.declareNew s).get? name = (t.get? name).or (if s.name = name then some s else none) := by
  cases h : t.get? s.name with
  | some first =>
    rw [declareNew_of_some h]
    split
    · next hn => rw [← hn, h]; rfl
    · simp
  | none =>
    rw [declareNew_of_none h, get?_insert]
    split
    · next hn => rw [← hn, h]; rfl
    · simp

theorem get?_setTypes (t : SymbolTable) (key : String) (ty : Option Ty) (params : List (Option Ty))
    (name : String) :
    (t.setTypes key ty params).get? name =
      (t.get? name).map fun s => if key = name then { s with ty, params } else s := by
  unfold setTypes
  by_cases hn : key = name
  · subst hn
    cases h : t.get? key <;> simp [get?_insert, h]
  · cases h : t.get? key <;> simp [get?_insert, hn]

end SymbolTable

end ThreeAddress
