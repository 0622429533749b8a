import Mathlib.Logic.Function.Basic
import ThreeAddress.Code.Instruction
import ThreeAddress.Proofs.Program

namespace ThreeAddress

universe u

abbrev Store (V : Type u) := String → V

/-- The name of a called function and the values of the arguments. -/
abbrev Call (V : Type u) := String × List V

/-- What a body leaves behind: its variables, its calls in order, and the value it returns. -/
structure Effect (V : Type u) where
  store : Store V
  calls : List (Call V)
  returned : Option V

structure Interpretation (V : Type u) where
  int : Nat → V
  /-- a float as it is written -/
  float : String → V
  bool : Bool → V
  operator : Operator → V → V → V
  /-- A call gives a value and leaves variables alone. -/
  function : String → List V → V

variable {V : Type u}

namespace Interpretation

variable (i : Interpretation V) (s : Store V)

def zero : Ty → V
  | .int => i.int 0
  | .float => i.float "0.0"
  | .bool => i.bool false

/-- The value of a name or literal. -/
def value (t : Token) : V :=
  match t.kind with
  | .ident => s t.lexeme
  | .trueWord => i.bool true
  | .falseWord => i.bool false
  | _ =>
    if Numeral.isFloat t.lexeme.toList then i.float t.lexeme
    else i.int ((Numeral.magnitude? t.lexeme.toList).getD 0)

/-- The value of an expression and the calls it makes, those of the left operand first. -/
def eval : Expr → V × List (Call V)
  | .literal t => (i.value s t, [])
  | .name t => (i.value s t, [])
  | .call f args =>
    let values := args.map (i.value s)
    (i.function f.lexeme values, [(f.lexeme, values)])
  | .binary op _ lhs rhs =>
    (i.operator op (eval lhs).1 (eval rhs).1, (eval lhs).2 ++ (eval rhs).2)

end Interpretation

/-- Calls made before. -/
def Effect.after (calls : List (Call V)) (e : Effect V) : Effect V :=
  { e with calls := calls ++ e.calls }

/-- Statements run one after the other from a store, up to the first that returns. A local that is
not given a value has the zero of the type that its token denotes. -/
inductive Program.Runs (p : Program) (i : Interpretation V) :
    List Stmt → Store V → Effect V → Prop
  | nil {s : Store V} : Runs p i [] s ⟨s, [], none⟩
  | declare {s : Store V} {name type : Token} {ty : Ty} {ss : List Stmt} {o : Effect V}
    (ht : p.Denotes type ty) (h : Runs p i ss (Function.update s name.lexeme (i.zero ty)) o) :
    Runs p i (.local name type none :: ss) s o
  | init {s : Store V} {name type : Token} {e : Expr} {ss : List Stmt} {o : Effect V}
    (h : Runs p i ss (Function.update s name.lexeme (i.eval s e).1) o) :
    Runs p i (.local name type (some e) :: ss) s (o.after (i.eval s e).2)
  | assign {s : Store V} {target : Token} {e : Expr} {ss : List Stmt} {o : Effect V}
    (h : Runs p i ss (Function.update s target.lexeme (i.eval s e).1) o) :
    Runs p i (.assign target e :: ss) s (o.after (i.eval s e).2)
  | call {s : Store V} {f : Token} {args : List Token} {ss : List Stmt} {o : Effect V}
    (h : Runs p i ss s o) :
    Runs p i (.call f args :: ss) s (o.after [(f.lexeme, args.map (i.value s))])
  | ret {s : Store V} {keyword : Token} {e : Expr} {ss : List Stmt} :
    Runs p i (.ret keyword e :: ss) s ⟨s, (i.eval s e).2, some (i.eval s e).1⟩

structure Machine (V : Type u) where
  store : Store V
  temps : Nat → V
  /-- arguments of the next call, the last one at the end -/
  pending : List V
  calls : List (Call V)

namespace Machine

variable (i : Interpretation V) (m : Machine V)

/-- The machine in front of a function. -/
def start (s : Store V) (temps : Nat → V) : Machine V := ⟨s, temps, [], []⟩

def read : Operand → V
  | .name x => m.store x
  | .temp n => m.temps n
  | .int v => i.int v
  | .float s => i.float s
  | .bool b => i.bool b

/-- Literals are no places. -/
def write : Operand → V → Option (Machine V)
  | .name x, v => some { m with store := Function.update m.store x v }
  | .temp n, v => some { m with temps := Function.update m.temps n v }
  | _, _ => none

/-- A result that nobody wants is dropped. -/
def keep : Option Operand → V → Option (Machine V)
  | none, _ => some m
  | some x, v => m.write x v

/-- Takes the last arguments that wait for a call. -/
def take (f : String) (n : Nat) : Option (List V × Machine V) :=
  if n ≤ m.pending.length then
    let args := m.pending.drop (m.pending.length - n)
    let pending := m.pending.take (m.pending.length - n)
    some (args, { m with pending, calls := m.calls ++ [(f, args)] })
  else none

/-- Instructions of any other shape have no next machine. -/
def step : Instruction → Option (Machine V)
  | ⟨.copy, some a, none, some x⟩ => m.write x (m.read i a)
  | ⟨.binary op, some a, some b, some x⟩ => m.write x (i.operator op (m.read i a) (m.read i b))
  | ⟨.paramIn, none, none, some (.name _)⟩ => some m
  | ⟨.param, some a, none, none⟩ => some { m with pending := m.pending ++ [m.read i a] }
  | ⟨.call, some (.name f), some (.int n), x⟩ =>
    (m.take f n).bind fun (args, m) => m.keep x (i.function f args)
  | _ => none

end Machine

/-- Executes instructions in order up to the first that returns. -/
def Interpretation.run (i : Interpretation V) :
    Machine V → List Instruction → Option (Effect V)
  | m, [] => some ⟨m.store, m.calls, none⟩
  | m, ⟨.ret, some a, none, none⟩ :: _ => some ⟨m.store, m.calls, some (m.read i a)⟩
  | m, x :: xs => (m.step i x).bind fun m => run i m xs

namespace Instruction

def opens (f : String) (x : Instruction) : Bool := x.op = .func ∧ x.arg1 = some (.name f)

def closes (f : String) (x : Instruction) : Bool := x.op = .endFunc ∧ x.arg1 = some (.name f)

end Instruction

/-- The instructions between the opening of a function and its end. -/
def Code.between (f : String) (code : List Instruction) : List Instruction :=
  (code.dropWhile fun x => !x.opens f).tail.takeWhile fun x => !x.closes f

end ThreeAddress
