import ThreeAddress.Operator

namespace ThreeAddress.Sample

/-- The integer type, or an alias by its number. -/
inductive IntType where
  | int
  | alias (n : Nat)
  deriving DecidableEq, Repr

inductive NumberStyle where
  | hex
  | binary
  | unsigned
  | plain
  deriving DecidableEq, Repr

structure Number where
  value : Nat
  style : NumberStyle
  deriving DecidableEq, Repr

inductive Var where
  | param (n : Nat)
  | global (n : Nat)
  | local (n : Nat)
  deriving DecidableEq, Repr

/-- An argument of a call: a variable or a small number. -/
inductive Argument where
  | var (v : Var)
  | number (n : Nat)
  deriving DecidableEq, Repr

structure Call where
  function : Nat
  args : List Argument
  deriving DecidableEq, Repr

inductive Term where
  | call (c : Call)
  | var (v : Var)
  | number (n : Number)
  deriving DecidableEq, Repr

/-- A term, and operators with terms behind it. -/
structure Sum where
  first : Term
  rest : List (Operator × Term)
  deriving DecidableEq, Repr

inductive Statement where
  | local (n : Nat) (type : IntType) (init : Option Sum)
  | assign (target : Var) (value : Sum)
  | call (c : Call)
  | comment
  deriving DecidableEq, Repr

structure Func where
  number : Nat
  params : List IntType
  ret : IntType
  body : List Statement
  result : Sum
  deriving DecidableEq, Repr

inductive Piece where
  | alias (n : Nat) (target : IntType)
  | global (n : Nat) (type : IntType) (init : Option Number)
  | comment (text : List Char)
  | function (f : Func)
  deriving DecidableEq, Repr

def IntType.text (mark : String) : IntType → String
  | .int => "int"
  | .alias n => s!"{mark}t{n}"

def digitsText (radix n : Nat) : String := String.ofList (Nat.toDigits radix n)

def Number.text (n : Number) : String :=
  match n.style with
  | .hex => "0x" ++ digitsText 16 n.value
  | .binary => "0b" ++ digitsText 2 (n.value % 256)
  | .unsigned => s!"{n.value}u"
  | .plain => s!"{n.value}"

def Var.text (mark : String) : Var → String
  | .param n => s!"p{n}"
  | .global n => s!"{mark}g{n}"
  | .local n => s!"v{n}"

def Argument.text (mark : String) : Argument → String
  | .var v => v.text mark
  | .number n => s!"{n}"

def Call.text (mark : String) (c : Call) : String :=
  let args := ", ".intercalate (c.args.map (·.text mark))
  s!"{mark}f{c.function}({args})"

def Term.text (mark : String) : Term → String
  | .call c => c.text mark
  | .var v => v.text mark
  | .number n => n.text

def Sum.text (mark : String) (s : Sum) : String :=
  s.first.text mark ++
    String.join (s.rest.map fun (op, t) => " " ++ op.symbol ++ " " ++ t.text mark)

/-- The first value of a variable, if it has one. -/
def initText (init : Option String) : String :=
  match init with
  | some v => " = " ++ v
  | none => ""

def Statement.text (mark : String) : Statement → String
  | .local n type init =>
    let value := initText (init.map (·.text mark))
    s!"    var v{n}: {type.text mark}{value};\n"
  | .assign target value => "    " ++ target.text mark ++ " = " ++ value.text mark ++ ";\n"
  | .call c => "    " ++ c.text mark ++ ";\n"
  | .comment => "    // nothing here\n"

def Func.text (mark : String) (f : Func) : String :=
  let params := f.params.zipIdx.map fun (t, i) => s!"p{i}: {t.text mark}"
  let list := ", ".intercalate params
  s!"func {mark}f{f.number}({list}): {f.ret.text mark} \x7b\n" ++
    String.join (f.body.map (·.text mark)) ++
    "    return " ++ f.result.text mark ++ ";\n\x7d\n"

def Piece.text (mark : String) : Piece → String
  | .alias n target => s!"type {mark}t{n} = {target.text mark};\n"
  | .global n type init =>
    let value := initText (init.map (·.text))
    s!"var {mark}g{n}: {type.text mark}{value};\n"
  | .comment cs => "//" ++ String.ofList cs ++ "\n"
  | .function f => f.text mark

end ThreeAddress.Sample
