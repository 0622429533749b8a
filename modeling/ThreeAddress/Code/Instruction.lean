import ThreeAddress.Operator

namespace ThreeAddress

inductive Operand where
  | name (s : String)
  | temp (n : Nat)
  | int (v : Nat)
  /-- a float as it is written -/
  | float (text : String)
  | bool (b : Bool)
  deriving DecidableEq, Repr

namespace Operand

def text : Operand → String
  | .name s => s
  | .temp n => s!"_t{n}"
  | .int v => toString v
  | .float s => s
  | .bool true => "true"
  | .bool false => "false"

/-- The value of a variable that is not given one. -/
def zero : Ty → Operand
  | .int => .int 0
  | .float => .float "0.0"
  | .bool => .bool false

/-- The value of a literal. An integer that does not fit in 64 bits has none. -/
def ofLiteral? (t : Token) : Option Operand :=
  match t.kind with
  | .trueWord => some (.bool true)
  | .falseWord => some (.bool false)
  | .number =>
    if Numeral.isFloat t.lexeme.toList then some (.float t.lexeme)
    else (Numeral.value? t.lexeme.toList).map .int
  | _ => none

def ofToken (t : Token) : Operand := .name t.lexeme

end Operand

inductive Op where
  | global
  | copy
  | binary (op : Operator)
  | func
  | paramIn
  | param
  | call
  | ret
  | endFunc
  deriving DecidableEq, Repr

structure Instruction where
  op : Op
  arg1 : Option Operand
  arg2 : Option Operand
  result : Option Operand
  deriving DecidableEq, Repr

namespace Instruction

def global (x : Operand) : Instruction := ⟨.global, none, none, some x⟩

/-- `x = a` -/
def copy (x a : Operand) : Instruction := ⟨.copy, some a, none, some x⟩

/-- `x = a op b` -/
def binary (op : Operator) (x a b : Operand) : Instruction := ⟨.binary op, some a, some b, some x⟩

def func (f : Operand) (params : Nat) : Instruction := ⟨.func, some f, some (.int params), none⟩

/-- A parameter inside its function. -/
def paramIn (x : Operand) : Instruction := ⟨.paramIn, none, none, some x⟩

/-- An argument of the next call. -/
def param (a : Operand) : Instruction := ⟨.param, some a, none, none⟩

def call (x : Option Operand) (f : Operand) (args : Nat) : Instruction :=
  ⟨.call, some f, some (.int args), x⟩

def ret (a : Operand) : Instruction := ⟨.ret, some a, none, none⟩

def endFunc (f : Operand) : Instruction := ⟨.endFunc, some f, none, none⟩

/-- A missing operand is written as an underscore. -/
def operandText (o : Option Operand) : String := (o.map Operand.text).getD "_"

def text (i : Instruction) : String :=
  let (a, b, r) := (operandText i.arg1, operandText i.arg2, operandText i.result)
  match i.op with
  | .global => s!"global {r}"
  | .copy => s!"{r} = {a}"
  | .binary op => s!"{r} = {a} {op.symbol} {b}"
  | .func => s!"func {a}, {b}"
  | .paramIn => s!"param_in {r}"
  | .param => s!"param {a}"
  | .call => if i.result.isSome then s!"{r} = call {a}, {b}" else s!"call {a}, {b}"
  | .ret => s!"return {a}"
  | .endFunc => s!"endfunc {a}"

end Instruction

end ThreeAddress
