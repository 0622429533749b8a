import ThreeAddress.Sample.Dice
import ThreeAddress.Sample.Program

namespace ThreeAddress.Sample

/-- What is declared so far: aliases and globals by their number, functions by their arities. -/
structure Names where
  aliases : Nat
  globals : Nat
  functions : List Nat
  deriving DecidableEq, Repr

namespace Names

def empty : Names := ⟨0, 0, []⟩

def add (names : Names) : Piece → Names
  | .alias _ _ => { names with aliases := names.aliases + 1 }
  | .global _ _ _ => { names with globals := names.globals + 1 }
  | .comment _ => names
  | .function f => { names with functions := names.functions ++ [f.params.length] }

end Names

/-- Characters of comments. -/
def commentChars : List Char :=
  "abcdefghijklmnopqrstuvwxyzABCDEFGHIJKLMNOPQRSTUVWXYZ0123456789 +-*/_@#\x7b\x7d()<>=".toList

variable {σ : Type} (d : Dice σ)

/-- An alias with the given odds if there is one, else the integer type. -/
def drawType (odds : Odds) (aliases : Nat) : StateM σ IntType :=
  match aliases with
  | 0 => return .int
  | n + 1 => do
    if ← d.flip odds then return .alias (← d.draw n) else return .int

def drawNumber : StateM σ Number := do
  let v ← d.draw 99999
  let style ← d.draw 9
  return ⟨v, match style.val with
    | 0 => .hex
    | 1 => .binary
    | 2 => .unsigned
    | _ => .plain⟩

def drawArgument : List Var → StateM σ Argument
  | [] => return .number (← d.draw 999)
  | v :: scope => do
    if ← d.flip .five then return .var (← d.pick v scope) else return .number (← d.draw 999)

/-- A call of one of the functions, which are given by their arities. -/
def drawCall (scope : List Var) (first : Nat) (more : List Nat) : StateM σ Call := do
  let i ← d.draw more.length
  let args ← Dice.times (first :: more)[i] (drawArgument d scope)
  return ⟨i, args⟩

def drawTerm (scope : List Var) (functions : List Nat) : StateM σ Term := do
  let n ← d.draw 99
  match scope, functions with
  | v :: scope, f :: functions =>
    if n.val < 15 then return .call (← drawCall d (v :: scope) f functions)
    else if n.val < 60 then return .var (← d.pick v scope)
    else return .number (← drawNumber d)
  | [], f :: functions =>
    if n.val < 15 then return .call (← drawCall d [] f functions)
    else return .number (← drawNumber d)
  | v :: scope, [] =>
    if 15 ≤ n.val ∧ n.val < 60 then return .var (← d.pick v scope)
    else return .number (← drawNumber d)
  | [], [] => return .number (← drawNumber d)

def drawSum (scope : List Var) (functions : List Nat) : StateM σ Sum := do
  let first ← drawTerm d scope functions
  let n ← d.draw 3
  let rest ← Dice.times n.val do
    let op ← d.pick .add [.sub, .mul, .div, .rem]
    let t ← drawTerm d scope functions
    return (op, t)
  return ⟨first, rest⟩

def drawLocal (names : Names) (scope : List Var) (locals : Nat) : StateM σ Statement := do
  let type ← drawType d .four names.aliases
  if ← d.flip .eight then
    return .local locals type (some (← drawSum d scope names.functions))
  else return .local locals type none

/-- A statement where so many locals are declared. -/
def drawStatement (names : Names) (scope : List Var) (locals : Nat) : StateM σ Statement := do
  let n ← d.draw 99
  if n.val < 40 then drawLocal d names scope locals
  else if n.val < 70 then
    match scope with
    | [] => return .comment
    | v :: rest =>
      let target ← d.pick v rest
      return .assign target (← drawSum d scope names.functions)
  else if n.val < 90 then
    match names.functions with
    | [] => return .comment
    | f :: functions => return .call (← drawCall d scope f functions)
  else return .comment

/-- Statements, and what is in scope behind them. -/
def drawBody (names : Names) : Nat → List Var → Nat → StateM σ (List Statement × List Var)
  | 0, scope, _ => return ([], scope)
  | n + 1, scope, locals => do
    let s ← drawStatement d names scope locals
    let (scope, locals) := match s with
      | .local i _ _ => (scope ++ [.local i], locals + 1)
      | _ => (scope, locals)
    let (rest, scope) ← drawBody names n scope locals
    return (s :: rest, scope)

def drawFunction (names : Names) : StateM σ Func := do
  let arity ← d.draw 3
  let params ← Dice.times arity.val (drawType d .four names.aliases)
  let ret ← drawType d .four names.aliases
  let scope := (List.range arity.val).map Var.param ++ (List.range names.globals).map Var.global
  let count ← d.draw 6
  let (body, scope) ← drawBody d names count.val scope 0
  let result ← drawSum d scope names.functions
  return ⟨names.functions.length, params, ret, body, result⟩

def drawGlobal (names : Names) : StateM σ Piece := do
  let type ← drawType d .four names.aliases
  if ← d.flip .seven then return .global names.globals type (some (← drawNumber d))
  else return .global names.globals type none

def drawComment : StateM σ Piece := do
  let n ← d.draw 40
  let cs ← Dice.times n.val (d.pick 'a' commentChars.tail)
  return .comment cs

def drawPiece (names : Names) : StateM σ Piece := do
  let n ← d.draw 99
  if n.val < 10 then return .alias names.aliases (← drawType d .three names.aliases)
  else if n.val < 35 then drawGlobal d names
  else if n.val < 45 then drawComment d
  else return .function (← drawFunction d names)

/-- Pieces until their text has a number of bytes. No piece is empty, so that there are not more
pieces than bytes. -/
def drawPieces (mark : String) : Nat → Nat → Names → StateM σ (List String)
  | 0, _, _ => return []
  | fuel + 1, missing, names =>
    if missing = 0 then return []
    else do
      let p ← drawPiece d names
      let text := p.text mark
      let rest ← drawPieces mark fuel (missing - text.utf8ByteSize) (names.add p)
      return text :: rest

/-- The text of a sample program of at least so many bytes. -/
def program (length : Nat) (mark : String) : StateM σ String := do
  let pieces ← drawPieces d mark length length .empty
  return String.join pieces

end ThreeAddress.Sample
