import ThreeAddress.Code.Instruction
import ThreeAddress.Code.Phase
import ThreeAddress.Symbol
import ThreeAddress.Tree.View

namespace ThreeAddress

/-- Why there is no code: the table does not fit the tree, or the tree was not checked. -/
inductive CodeError where
  | noPhase (phase : Phase) (kind : State) (site : Site)
  | unfinished (phase : Phase) (file : String)
  | unchecked (t : Token)
  | malformed (m : Malformed)
  deriving DecidableEq, Repr

def CodeError.message : CodeError → String
  | .noPhase p k s => s!"{s.text}: generation table has no entry for {k.name} in {p.name}"
  | .unfinished p file => s!"generation for {file} stopped in {p.name} instead of Finished"
  | .unchecked t => s!"{t.site.text}: `{t.lexeme}` reached lowering unchecked"
  | .malformed m => m.message

namespace Code

/-- A name or the value of a literal. -/
def value (t : Token) : Except CodeError Operand :=
  if t.kind = .ident then .ok (.ofToken t)
  else
    match Operand.ofLiteral? t with
    | some o => .ok o
    | none => .error (.unchecked t)

/-- A call with its arguments in front. -/
def call (dest : Option Operand) (callee : Token) (args : List Token) :
    Except CodeError (List Instruction) := do
  let params ← args.mapM fun a => (value a).map Instruction.param
  return params ++ [.call dest (.ofToken callee) args.length]

/-- Gives an operand for an expression. A name or literal is one itself; all else is computed into
the next temporary. -/
def spill (e : Expr) (temps : Nat)
    (compute : Operand → Nat → Except CodeError (List Instruction × Nat)) :
    Except CodeError (Operand × List Instruction × Nat) :=
  match e with
  | .literal t | .name t => (value t).map (·, [], temps)
  | _ => do
    let (code, temps') ← compute (.temp temps) (temps + 1)
    return (.temp temps, code, temps')

/-- Code that leaves the value of an expression in a destination, and the next temporary. -/
def into : Expr → Operand → Nat → Except CodeError (List Instruction × Nat)
  | .literal t, dest, temps => (value t).map fun a => ([.copy dest a], temps)
  | .name t, dest, temps => (value t).map fun a => ([.copy dest a], temps)
  | .call callee args, dest, temps => (call (some dest) callee args).map (·, temps)
  | .binary op _ lhs rhs, dest, temps => do
    let (l, left, temps) ← spill lhs temps (into lhs)
    let (r, right, temps) ← spill rhs temps (into rhs)
    return (left ++ right ++ [.binary op dest l r], temps)

/-- Gives an operand for an expression; what computes it is put on a stack of earlier code. -/
def spillOnto (e : Expr) (temps : Nat) (code : List Instruction)
    (compute : Operand → Nat → List Instruction → Except CodeError (List Instruction × Nat)) :
    Except CodeError (Operand × List Instruction × Nat) :=
  match e with
  | .literal t | .name t => (value t).map (·, code, temps)
  | _ => do
    let (code, temps') ← compute (.temp temps) (temps + 1) code
    return (.temp temps, code, temps')

/-- The code of an expression on a stack of earlier code, newest first. -/
def intoOnto : Expr → Operand → Nat → List Instruction →
    Except CodeError (List Instruction × Nat)
  | .literal t, dest, temps, code => (value t).map fun a => (.copy dest a :: code, temps)
  | .name t, dest, temps, code => (value t).map fun a => (.copy dest a :: code, temps)
  | .call callee args, dest, temps, code =>
    (call (some dest) callee args).map fun made => (made.reverse ++ code, temps)
  | .binary op _ lhs rhs, dest, temps, code => do
    let (l, code, temps) ← spillOnto lhs temps code (intoOnto lhs)
    let (r, code, temps) ← spillOnto rhs temps code (intoOnto rhs)
    return (.binary op dest l r :: code, temps)

theorem spillOnto_eq (e : Expr) (temps : Nat) (code : List Instruction)
    (h : ∀ dest temps code, intoOnto e dest temps code =
      (into e dest temps).map fun (made, temps') => (made.reverse ++ code, temps')) :
    spillOnto e temps code (intoOnto e) =
      (spill e temps (into e)).map fun (a, made, temps') => (a, made.reverse ++ code, temps') := by
  cases e with
  | literal t => simp only [spillOnto, spill]; cases value t <;> rfl
  | name t => simp only [spillOnto, spill]; cases value t <;> rfl
  | call callee args =>
    simp only [spillOnto, spill, h]
    cases into (.call callee args) (.temp temps) (temps + 1) <;> rfl
  | binary op t lhs rhs =>
    simp only [spillOnto, spill, h]
    cases into (.binary op t lhs rhs) (.temp temps) (temps + 1) <;> rfl

theorem intoOnto_eq (e : Expr) (dest : Operand) (temps : Nat) (code : List Instruction) :
    intoOnto e dest temps code =
      (into e dest temps).map fun (made, temps') => (made.reverse ++ code, temps') := by
  induction e generalizing dest temps code with
  | literal t => simp only [intoOnto, into]; cases value t <;> rfl
  | name t => simp only [intoOnto, into]; cases value t <;> rfl
  | call callee args => simp only [intoOnto, into]; cases call (some dest) callee args <;> rfl
  | binary op t lhs rhs hl hr =>
    simp only [intoOnto, into, spillOnto_eq _ _ _ hl]
    cases spill lhs temps (into lhs) with
    | error e => rfl
    | ok l =>
      obtain ⟨a, left, temps⟩ := l
      simp only [Except.map, bind, Except.bind, spillOnto_eq _ _ _ hr]
      cases spill rhs temps (into rhs) with
      | error e => rfl
      | ok r => simp [pure, Except.pure]

/-- Code that leaves the value of an expression in a destination, in time that grows with the size
of the expression only. -/
def store (e : Expr) (dest : Operand) (temps : Nat) : Except CodeError (List Instruction × Nat) :=
  (intoOnto e dest temps []).map fun (code, temps) => (code.reverse, temps)

@[simp] theorem store_eq_into (e : Expr) (dest : Operand) (temps : Nat) :
    store e dest temps = into e dest temps := by
  rw [store, intoOnto_eq]
  cases into e dest temps <;> simp [Except.map]

/-- Code that gives the value of an expression as an operand. -/
def operand (e : Expr) (temps : Nat) : Except CodeError (Operand × List Instruction × Nat) :=
  spill e temps (store e)

/-- The first value of a variable of a resolved type. -/
def zero (s : Option Symbol) (blame : Token) : Except CodeError Operand :=
  match s.bind (·.ty) with
  | some ty => .ok (.zero ty)
  | none => .error (.unchecked blame)

def statement (symbols : SymbolTable) (func : Token) :
    Stmt → Nat → Except CodeError (List Instruction × Nat)
  | .local name _ (some e), temps => store e (.ofToken name) temps
  | .local name _ none, temps => do
    let v ← zero (symbols.local? func.lexeme name.lexeme) name
    return ([.copy (.ofToken name) v], temps)
  | .assign target e, temps => store e (.ofToken target) temps
  | .call callee args, temps => do return (← call none callee args, temps)
  | .ret _ e, temps => do
    let (v, code, temps) ← operand e temps
    return (code ++ [.ret v], temps)

/-- The phase behind a node. -/
def advance (table : GenerationTable) (p : Phase) (n : Node) : Except CodeError Phase :=
  match table.next p n.kind with
  | some p' => .ok p'
  | none => .error (.noPhase p n.kind n.token.site)

/-- The code of one construct in a function. -/
def construct (symbols : SymbolTable) (func : Token) (n : Node) (temps : Nat) :
    Except CodeError (List Instruction × Nat) :=
  match n.kind with
  | .paramName => .ok ([.paramIn (.ofToken n.token)], temps)
  | .bodyClose => .ok ([], temps)
  | _ => do
    let s ← (Stmt.ofNode n).mapError .malformed
    statement symbols func s temps

/-- The code of the constructs in a function, and the phase behind them. -/
def constructs (table : GenerationTable) (symbols : SymbolTable) (func : Token) :
    Phase → Nat → List Node → Except CodeError (List Instruction × Phase)
  | p, _, [] => .ok ([], p)
  | p, temps, n :: ns => do
    let p ← advance table p n
    let (code, temps) ← construct symbols func n temps
    let (more, p) ← constructs table symbols func p temps ns
    return (code ++ more, p)

def function (table : GenerationTable) (symbols : SymbolTable) (p : Phase) (n : Node)
    (f : Function) : Except CodeError (List Instruction × Phase) := do
  let name := Operand.ofToken f.name
  let (code, p) ← constructs table symbols f.name p 0 (n.children.filter (·.isConstruct))
  return (.func name f.params.length :: code ++ [.endFunc name], p)

def global (symbols : SymbolTable) (name type : Token) (init : Option Token) :
    Except CodeError (List Instruction) := do
  let initial ← zero (symbols.get? name.lexeme) type
  let v ← match init with
    | some t => value t
    | none => .ok initial
  return [.global (.ofToken name), .copy (.ofToken name) v]

/-- The code of a top-level node that leads to a phase, and the phase behind it. -/
def item (table : GenerationTable) (symbols : SymbolTable) (p : Phase) (n : Node) :
    Except CodeError (List Instruction × Phase) := do
  match ← (Item.ofNode n).mapError .malformed with
  | .type _ _ => return ([], p)
  | .finish _ => return ([], p)
  | .global name type init => return (← global symbols name type init, p)
  | .func f => function table symbols p n f

/-- The code of top-level nodes up to the one that finishes. -/
def items (table : GenerationTable) (symbols : SymbolTable) (file : String) :
    Phase → List Node → Except CodeError (List Instruction)
  | p, [] => .error (.unfinished p file)
  | p, n :: ns => do
    let p ← advance table p n
    let (code, p) ← item table symbols p n
    if p = .finished then return code
    return code ++ (← items table symbols file p ns)

end Code

/-- The code of a tree whose batch has the given symbols. -/
def Tree.emit (table : GenerationTable) (symbols : SymbolTable) (t : Tree) :
    Except CodeError (List Instruction) :=
  Code.items table symbols t.file .initial t.items

end ThreeAddress
