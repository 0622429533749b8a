import ThreeAddress.Operator
import ThreeAddress.Tree.Node

namespace ThreeAddress

/-- A node that is not of the shape that its kind promises. -/
structure Malformed where
  kind : State
  site : Site
  deriving DecidableEq, Repr

namespace Malformed

def node (n : Node) : Malformed := ⟨n.kind, n.token.site⟩

/-- The message without its place. -/
def detail (m : Malformed) : String := s!"malformed {m.kind.name} node"

def message (m : Malformed) : String := s!"{m.site.text}: {m.detail}"

end Malformed

/-- The token of a leaf of the wanted kind; the owner is to blame for any other node. -/
def Node.leafToken (owner : Node) (want : State) : Option Node → Except Malformed Token
  | some (.leaf k t) => if k = want then .ok t else .error (.node owner)
  | _ => .error (.node owner)

inductive Expr where
  | literal (t : Token)
  | name (t : Token)
  | call (callee : Token) (args : List Token)
  | binary (op : Operator) (token : Token) (lhs rhs : Expr)
  deriving Repr

namespace Expr

/-- The token that places messages about the expression. -/
def anchor : Expr → Token
  | .literal t => t
  | .name t => t
  | .call callee _ => callee
  | .binary _ _ lhs _ => lhs.anchor

/-- The operand that a node records. -/
def ofOperand (owner : Node) : Option Node → Except Malformed Expr
  | none => .error (.node owner)
  | some (.leaf .operand t) => .ok (.literal t)
  | some (.leaf .operandName t) => .ok (.name t)
  | some n@(.branch .callOpen _ []) => .error (.node n)
  | some n@(.branch .callOpen t (_ :: args)) =>
    (args.mapM fun a => n.leafToken .callArg (some a)).map (.call t)
  | some n => .error (.node n)

/-- An expression that was read, with the position behind it. -/
structure Reading (start : Nat) where
  expr : Expr
  stop : Nat
  le : start ≤ stop

mutual

/-- Reads an operand, and on from there while the power of the operators is at least `min`. -/
def climb (owner : Node) (nodes : List Node) (min pos : Nat) :
    Except Malformed (Reading (pos + 1)) := do
  let lhs ← ofOperand owner nodes[pos]?
  climbOn owner nodes min lhs (pos + 1)
termination_by 2 * (nodes.length - pos) + 1

/-- Reads on behind an expression. The right operand of an operator takes those behind it that bind
more tightly. -/
def climbOn (owner : Node) (nodes : List Node) (min : Nat) (lhs : Expr) (pos : Nat) :
    Except Malformed (Reading pos) :=
  match h : nodes[pos]? with
  | some (.leaf .binOp t) =>
    match Operator.ofKind? t.kind with
    | none => .error (.node owner)
    | some op =>
      if op.power < min then .ok ⟨lhs, pos, Nat.le_refl pos⟩
      else do
        let rhs ← climb owner nodes (op.power + 1) (pos + 1)
        let r ← climbOn owner nodes min (.binary op t lhs rhs.expr) rhs.stop
        return ⟨r.expr, r.stop, by have := rhs.le; have := r.le; omega⟩
  | _ => .ok ⟨lhs, pos, Nat.le_refl pos⟩
termination_by 2 * (nodes.length - pos)
decreasing_by
  all_goals have hlt : pos < nodes.length := (List.getElem?_eq_some_iff.mp h).1
  · omega
  · have hle := rhs.le
    omega

end

/-- The expression that a run of operands and operators stands for. -/
def ofNodes (owner : Node) (nodes : List Node) : Except Malformed Expr := do
  let r ← climb owner nodes 0 0
  if r.stop = nodes.length then return r.expr else .error (.node owner)

end Expr

structure Param where
  name : Token
  type : Token
  deriving DecidableEq, Repr

structure Function where
  name : Token
  params : List Param
  ret : Token
  body : List Node
  close : Token

inductive Item where
  | type (name target : Token)
  | global (name type : Token) (init : Option Token)
  | func (f : Function)
  | finish (eof : Token)

inductive Stmt where
  | local (name type : Token) (init : Option Expr)
  | assign (target : Token) (value : Expr)
  | call (callee : Token) (args : List Token)
  | ret (keyword : Token) (value : Expr)
  deriving Repr

namespace Function

/-- The parameters in front, and the nodes behind them. -/
def splitParams : List Node → Except Malformed (List Param × List Node)
  | n@(.branch .paramName _ cs) :: rest => do
    let name ← n.leafToken .paramName cs[0]?
    let type ← n.leafToken .paramType cs[1]?
    let (params, rest) ← splitParams rest
    return (⟨name, type⟩ :: params, rest)
  | rest => .ok ([], rest)

def ofNode (n : Node) : Except Malformed Function := do
  let name ← n.leafToken .funcName n.children[0]?
  let (params, rest) ← splitParams n.children.tail
  let ret ← n.leafToken .retType rest[0]?
  let close ← n.leafToken .bodyClose n.children.getLast?
  return ⟨name, params, ret, rest.tail.dropLast, close⟩

end Function

def Item.ofNode (n : Node) : Except Malformed Item :=
  let cs := n.children
  match n.kind with
  | .typeKw =>
    if cs.length = 2 then do
      let name ← n.leafToken .typeName cs[0]?
      let target ← n.leafToken .typeTarget cs[1]?
      return .type name target
    else .error (.node n)
  | .globalKw =>
    if cs.length = 2 ∨ cs.length = 3 then do
      let name ← n.leafToken .globalName cs[0]?
      let type ← n.leafToken .globalType cs[1]?
      let init ← cs[2]?.mapM fun c => n.leafToken .globalInit (some c)
      return .global name type init
    else .error (.node n)
  | .funcKw => (Function.ofNode n).map .func
  | .finished => .ok (.finish n.token)
  | _ => .error (.node n)

def Stmt.ofNode (n : Node) : Except Malformed Stmt :=
  let cs := n.children
  match n.kind with
  | .localKw => do
    let name ← n.leafToken .localName cs[0]?
    let type ← n.leafToken .localType cs[1]?
    match cs.drop 2 with
    | [] => return .local name type none
    | rest =>
      let init ← Expr.ofNodes n rest
      return .local name type (some init)
  | .assignEq => do
    let target ← n.leafToken .stmtName cs[0]?
    let value ← Expr.ofNodes n cs.tail
    return .assign target value
  | .callStmt => do
    let callee ← n.leafToken .stmtName cs[0]?
    let args ← cs.tail.mapM fun a => n.leafToken .callStmtArg (some a)
    return .call callee args
  | .returnKw => (Expr.ofNodes n cs).map (.ret n.token)
  | _ => .error (.node n)

end ThreeAddress
