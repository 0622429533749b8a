import ThreeAddress.Analysis.Literal
import ThreeAddress.Analysis.TypeName

namespace ThreeAddress

/-- A parameter or a local that is in scope. -/
structure Local where
  ty : Option Ty
  site : Site
  deriving DecidableEq, Repr

structure Scope where
  symbols : SymbolTable
  locals : Std.TreeMap String Local

namespace Scope

def add (c : Scope) (name : String) (l : Local) : Scope :=
  { c with locals := c.locals.insert name l }

/-- The types that a function's header gives, when the function is the one that its name stands
for. A parameter whose name an earlier one has is not in scope. -/
def ofSymbols (symbols : SymbolTable) (f : Function) : Option Ty × Scope :=
  let fname := f.name.lexeme
  ((symbols.get? fname).bind (·.ty),
    f.params.foldl (fun c p =>
      match symbols.local? fname p.name.lexeme with
      | some s => if s.site = p.name.site then c.add p.name.lexeme ⟨s.ty, p.name.site⟩ else c
      | none => c) ⟨symbols, {}⟩)

/-- The types that a function's header gives by the names in it. -/
def ofHeader (symbols : SymbolTable) (f : Function) : Option Ty × Scope :=
  let type (t : Token) : Option Ty := (TypeName.lookup symbols t).toOption.join
  (type f.ret,
    f.params.foldl (fun c p =>
      if c.locals.contains p.name.lexeme then c else c.add p.name.lexeme ⟨type p.type, p.name.site⟩)
      ⟨symbols, {}⟩)

/-- The type of a name that stands for a variable; otherwise what it is instead, if anything. -/
def nameType (c : Scope) (name : String) : Except (Option Symbol) (Option Ty) :=
  match c.locals[name]? with
  | some l => .ok l.ty
  | none =>
    match c.symbols.get? name with
    | some s => if s.kind = .variable then .ok s.ty else .error (some s)
    | none => .error none

def undeclared (t : Token) : Diagnostic := .semantic s!"undeclared identifier `{t.lexeme}`" t

/-- The type of what a token assigns to. -/
def target (c : Scope) (t : Token) : Option Ty × List Diagnostic :=
  match c.nameType t.lexeme with
  | .ok ty => (ty, [])
  | .error (some s) =>
    (none, [.semantic s!"cannot assign to `{t.lexeme}`: it is {s.kind.describe}" t])
  | .error none => (none, [undeclared t])

/-- The type of a literal or of a name that is used as a value. -/
def value (c : Scope) (t : Token) : Option Ty × List Diagnostic :=
  if t.kind = .ident then
    match c.nameType t.lexeme with
    | .ok ty => (ty, [])
    | .error (some s) =>
      (none, [.semantic s!"`{t.lexeme}` is {s.kind.describe}, not a value" t])
    | .error none => (none, [undeclared t])
  else (Ty.ofLiteral? t, literalFaults t)

def argumentFault (callee : Token) (i : Nat) (arg : Token) (want got : Ty) : Diagnostic :=
  let name := callee.lexeme
  .semantic
    s!"type mismatch: argument {i} of `{name}` expects `{want.text}`, found `{got.text}`" arg

/-- The function that a token names. -/
def function? (c : Scope) (callee : Token) : Except Diagnostic Symbol :=
  let name := callee.lexeme
  if c.locals.contains name then
    .error (.semantic s!"`{name}` is a variable, not a function" callee)
  else
    match c.symbols.get? name with
    | none => .error (.semantic s!"undeclared function `{name}`" callee)
    | some s =>
      if s.kind = .function then .ok s
      else .error (.semantic s!"`{name}` is {s.kind.describe}, not a function" callee)

/-- Arguments against the parameters of a function. -/
def arguments (callee : Token) (params : List (Option Ty)) (args : List (Token × Option Ty)) :
    List Diagnostic :=
  if params.length = args.length then
    (params.zip args).zipIdx.flatMap fun ((want, arg, got), i) =>
      mismatch want got (argumentFault callee (i + 1) arg)
  else
    let (n, m) := (params.length, args.length)
    [.semantic s!"`{callee.lexeme}` takes {n} argument(s) but {m} were given" callee]

/-- The type of a call. Arguments are looked at before the function. -/
def call (c : Scope) (callee : Token) (args : List Token) : Option Ty × List Diagnostic :=
  let values := args.map c.value
  let faults := values.flatMap (·.2)
  match c.function? callee with
  | .error d => (none, faults ++ [d])
  | .ok s => (s.ty, faults ++ arguments callee s.params (args.zip (values.map (·.1))))

def operatorFault (t : Token) (l r : Ty) : Diagnostic :=
  .semantic
    s!"type mismatch: operator `{t.lexeme}` cannot be applied to `{l.text}` and `{r.text}`" t

/-- The type of an expression. -/
def infer (c : Scope) : Expr → Option Ty × List Diagnostic
  | .literal t => c.value t
  | .name t => c.value t
  | .call callee args => c.call callee args
  | .binary op t lhs rhs =>
    let (l, left) := c.infer lhs
    let (r, right) := c.infer rhs
    match l, r with
    | some l, some r =>
      match op.result l r with
      | some ty => (some ty, left ++ right)
      | none => (none, left ++ right ++ [operatorFault t l r])
    | _, _ => (none, left ++ right)

/-- The type of an expression; its problems are put on a stack of earlier ones, newest first. -/
def inferOnto (c : Scope) : Expr → List Diagnostic → Option Ty × List Diagnostic
  | .literal t, seen => (c.value t).map id (·.reverse ++ seen)
  | .name t, seen => (c.value t).map id (·.reverse ++ seen)
  | .call callee args, seen => (c.call callee args).map id (·.reverse ++ seen)
  | .binary op t lhs rhs, seen =>
    let (l, seen) := c.inferOnto lhs seen
    let (r, seen) := c.inferOnto rhs seen
    match l, r with
    | some l, some r =>
      match op.result l r with
      | some ty => (some ty, seen)
      | none => (none, operatorFault t l r :: seen)
    | _, _ => (none, seen)

theorem inferOnto_eq (c : Scope) (e : Expr) (seen : List Diagnostic) :
    c.inferOnto e seen = ((c.infer e).1, (c.infer e).2.reverse ++ seen) := by
  induction e generalizing seen with
  | literal t => rfl
  | name t => rfl
  | call callee args => rfl
  | binary op t lhs rhs hl hr =>
    simp only [inferOnto, infer, hl, hr]
    split
    · split <;> simp
    · simp

/-- The type of an expression, in time that grows with its size only. -/
def examine (c : Scope) (e : Expr) : Option Ty × List Diagnostic :=
  (c.inferOnto e []).map id List.reverse

@[simp] theorem examine_eq_infer (c : Scope) (e : Expr) : c.examine e = c.infer e := by
  simp [examine, inferOnto_eq, Prod.map]

end Scope

/-- What is known inside a function: its name, its type, and what is in scope. -/
structure Frame where
  func : Token
  ret : Option Ty
  scope : Scope

namespace Frame

def localSymbol (func name : Token) (ty : Option Ty) : Symbol :=
  { Symbol.declared (Symbol.qualify func.lexeme name.lexeme) .variable name.site with ty }

/-- A local is in scope from the next statement on, unless its name is taken. -/
def declare (f : Frame) (name : Token) (ty : Option Ty) : Frame × List Diagnostic × List Symbol :=
  match f.scope.locals[name.lexeme]? with
  | some first => (f, [duplicate name first.site], [])
  | none =>
    ({ f with scope := f.scope.add name.lexeme ⟨ty, name.site⟩ }, [], [localSymbol f.func name ty])

def assignMismatch (target anchor : Token) (want got : Ty) : Diagnostic :=
  let name := target.lexeme
  .semantic s!"type mismatch: cannot assign `{got.text}` to `{name}` of type `{want.text}`" anchor

def returnMismatch (func anchor : Token) (want got : Ty) : Diagnostic :=
  let name := func.lexeme
  .semantic s!"type mismatch: `{name}` returns `{want.text}` but the value is `{got.text}`" anchor

/-- Checks a statement: what is known behind it, its problems, and the local that it declares. -/
def statement (f : Frame) : Stmt → Frame × List Diagnostic × List Symbol
  | .local name type init =>
    let (ty, bad) :=
      match TypeName.lookup f.scope.symbols type with
      | .ok ty => (ty, [])
      | .error d => (none, [d])
    let initial :=
      match init with
      | none => []
      | some e =>
        let (got, faults) := f.scope.examine e
        faults ++ mismatch ty got (initMismatch name.lexeme e.anchor)
    let (f, again, declared) := f.declare name ty
    (f, bad ++ initial ++ again, declared)
  | .assign target value =>
    let (want, left) := f.scope.target target
    let (got, right) := f.scope.examine value
    (f, left ++ right ++ mismatch want got (assignMismatch target value.anchor), [])
  | .call callee args => (f, (f.scope.call callee args).2, [])
  | .ret _ value =>
    let (got, faults) := f.scope.examine value
    (f, faults ++ mismatch f.ret got (returnMismatch f.func value.anchor), [])

/-- The problems and the locals of statements from top to bottom. A node that is no statement is
reported and passed over. -/
def body (f : Frame) : List Node → List Diagnostic × List Symbol
  | [] => ([], [])
  | n :: ns =>
    match Stmt.ofNode n with
    | .error m =>
      let (faults, declared) := f.body ns
      (m.diagnostic :: faults, declared)
    | .ok s =>
      let (f, faults, declared) := f.statement s
      let (more, others) := f.body ns
      (faults ++ more, declared ++ others)

end Frame

namespace Function

/-- Whether a function is the one that its name stands for. -/
def isAccepted (f : Function) (symbols : SymbolTable) : Bool :=
  ((symbols.get? f.name.lexeme).map (·.isFunctionAt f.name)).getD false

/-- What is known where the statements of a function start. -/
def opening (f : Function) (symbols : SymbolTable) : Frame :=
  let header := if f.isAccepted symbols then Scope.ofSymbols symbols f
    else Scope.ofHeader symbols f
  ⟨f.name, header.1, header.2⟩

/-- The problems of a function's body, and its locals if they count. -/
def check (f : Function) (symbols : SymbolTable) : List Diagnostic × List Symbol :=
  let (faults, declared) := (f.opening symbols).body f.body
  (faults, if f.isAccepted symbols then declared else [])

theorem check_eq_body (f : Function) (symbols : SymbolTable) :
    (f.check symbols).1 = ((f.opening symbols).body f.body).1 := rfl

end Function

/-- The functions of a file that can be read. -/
def Tree.functions (t : Tree) : List Function :=
  t.declarations.filterMap fun n =>
    match Item.ofNode n with
    | .ok (.func f) => some f
    | _ => none

end ThreeAddress
