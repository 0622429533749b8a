import ThreeAddress.Proofs.Climbing

namespace ThreeAddress

namespace TokenKind

def isLiteral : TokenKind → Bool
  | .number | .trueWord | .falseWord => true
  | _ => false

/-- Kinds of what a call may be given. -/
def isValue (k : TokenKind) : Bool := k == .ident || k.isLiteral

end TokenKind

namespace Phrase

abbrev TokenOf (k : TokenKind) := {t : Token // t.kind = k}

abbrev TypeToken := {t : Token // t.kind.isTypeName = true}

abbrev LiteralToken := {t : Token // t.kind.isLiteral = true}

abbrev ValueToken := {t : Token // t.kind.isValue = true}

structure OperatorToken where
  token : Token
  op : Operator
  op_eq : Operator.ofKind? token.kind = some op

/-- Members with a separator before every one but the first. -/
structure Chain (α σ : Type) where
  first : α
  tail : List (σ × α)

/-- What stands before the next member of a chain. -/
inductive Lead (α σ : Type) where
  | start
  | behind (c : Chain α σ) (s : σ)

section
variable {α σ β : Type} (f : α → List β) (g : σ → List β)

def Chain.members (c : Chain α σ) : List α := c.first :: c.tail.map (·.2)

def Chain.flatten (c : Chain α σ) : List β :=
  f c.first ++ c.tail.flatMap fun p => g p.1 ++ f p.2

def Lead.flatten : Lead α σ → List β
  | .start => []
  | .behind c s => c.flatten f g ++ g s

def Lead.add (a : α) : Lead α σ → Chain α σ
  | .start => ⟨a, []⟩
  | .behind c s => ⟨c.first, c.tail ++ [(s, a)]⟩

@[simp] theorem Lead.flatten_add (l : Lead α σ) (a : α) :
    (l.add a).flatten f g = l.flatten f g ++ f a := by
  cases l with
  | start => simp [add, Chain.flatten, flatten]
  | behind c s => simp [add, Chain.flatten, flatten]

theorem Chain.flatten_members (c : Chain α σ) :
    c.flatten f (fun _ => []) = c.members.flatMap f := by
  simp [flatten, members, List.flatMap_map]

end

abbrev Args := Chain ValueToken (TokenOf .comma)

def Args.values (as : Option Args) : List Token :=
  match as with
  | none => []
  | some c => c.members.map (·.1)

def Args.tokens (as : Option Args) : List Token :=
  match as with
  | none => []
  | some c => c.flatten (fun v => [v.1]) (fun s => [s.1])

/-- An operand of an expression. -/
inductive Term where
  | literal (t : LiteralToken)
  | name (t : TokenOf .ident)
  | call (callee : TokenOf .ident) (opening : TokenOf .lparen) (args : Option Args)
    (closing : TokenOf .rparen)

namespace Term

def tokens : Term → List Token
  | .literal t => [t.1]
  | .name t => [t.1]
  | .call f opening args closing => [f.1, opening.1] ++ Args.tokens args ++ [closing.1]

def node : Term → Node
  | .literal t => .leaf .operand t
  | .name t => .leaf .operandName t
  | .call f _ args _ =>
    .branch .callOpen f (.leaf .operandName f :: (Args.values args).map (.leaf .callArg))

def expr : Term → Expr
  | .literal t => .literal t
  | .name t => .name t
  | .call f _ args _ => .call f (Args.values args)

end Term

/-- An expression as it is written, without its structure. -/
abbrev Flat := Chain Term OperatorToken

namespace Flat

def tokens (e : Flat) : List Token := e.flatten Term.tokens fun o => [o.token]

def nodes (e : Flat) : List Node := e.flatten (fun t => [t.node]) fun o => [.leaf .binOp o.token]

def expr (e : Flat) : Expr :=
  e.tail.foldl (fun l p => Expr.append p.1.op p.1.token p.2.expr l) e.first.expr

end Flat

/-- A statement up to its expression. -/
inductive Head where
  | local (keyword : TokenOf .varWord) (name : TokenOf .ident) (colon : TokenOf .colon)
    (type : TypeToken) (eq : TokenOf .assign)
  | assign (name : TokenOf .ident) (eq : TokenOf .assign)
  | ret (keyword : TokenOf .returnWord)

namespace Head

def tokens : Head → List Token
  | .local keyword name colon type eq => [keyword.1, name.1, colon.1, type.1, eq.1]
  | .assign name eq => [name.1, eq.1]
  | .ret keyword => [keyword.1]

def kind : Head → State
  | .local _ _ _ _ _ => .localKw
  | .assign _ _ => .assignEq
  | .ret _ => .returnKw

def token : Head → Token
  | .local keyword _ _ _ _ => keyword
  | .assign name _ => name
  | .ret keyword => keyword

def nodes : Head → List Node
  | .local _ name _ type _ => [.leaf .localName name, .leaf .localType type]
  | .assign name _ => [.leaf .stmtName name]
  | .ret _ => []

/-- The statement that gives its expression to what the head names. -/
def stmt (e : Expr) : Head → ThreeAddress.Stmt
  | .local _ name _ type _ => .local name type (some e)
  | .assign name _ => .assign name e
  | .ret keyword => .ret keyword e

end Head

inductive Stmt where
  | local (keyword : TokenOf .varWord) (name : TokenOf .ident) (colon : TokenOf .colon)
    (type : TypeToken) (semi : TokenOf .semi)
  | valued (head : Head) (value : Flat) (semi : TokenOf .semi)
  | call (callee : TokenOf .ident) (opening : TokenOf .lparen) (args : Option Args)
    (closing : TokenOf .rparen) (semi : TokenOf .semi)

namespace Stmt

def tokens : Stmt → List Token
  | .local keyword name colon type semi => [keyword.1, name.1, colon.1, type.1, semi.1]
  | .valued head value semi => head.tokens ++ value.tokens ++ [semi.1]
  | .call f opening args closing semi =>
    [f.1, opening.1] ++ Args.tokens args ++ [closing.1, semi.1]

def node : Stmt → Node
  | .local keyword name _ type _ =>
    .branch .localKw keyword [.leaf .localName name, .leaf .localType type]
  | .valued head value _ => .branch head.kind head.token (head.nodes ++ value.nodes)
  | .call f _ args _ _ =>
    .branch .callStmt f (.leaf .stmtName f :: (Args.values args).map (.leaf .callStmtArg))

def stmt : Stmt → ThreeAddress.Stmt
  | .local _ name _ type _ => .local name type none
  | .valued head value _ => head.stmt value.expr
  | .call f _ args _ _ => .call f (Args.values args)

end Stmt

structure Param where
  name : TokenOf .ident
  colon : TokenOf .colon
  type : TypeToken

namespace Param

def tokens (p : Param) : List Token := [p.name.1, p.colon.1, p.type.1]

def node (p : Param) : Node :=
  .branch .paramName p.name [.leaf .paramName p.name, .leaf .paramType p.type]

def param (p : Param) : ThreeAddress.Param := ⟨p.name, p.type⟩

end Param

abbrev Params := Chain Param (TokenOf .comma)

def Params.list (ps : Option Params) : List Param :=
  match ps with
  | none => []
  | some c => c.members

def Params.tokens (ps : Option Params) : List Token :=
  match ps with
  | none => []
  | some c => c.flatten Param.tokens fun s => [s.1]

/-- A function up to its body. -/
structure Header where
  keyword : TokenOf .funcWord
  name : TokenOf .ident
  opening : TokenOf .lparen
  params : Option Params
  closing : TokenOf .rparen
  colon : TokenOf .colon
  ret : TypeToken
  brace : TokenOf .lbrace

namespace Header

def tokens (h : Header) : List Token :=
  [h.keyword.1, h.name.1, h.opening.1] ++ Params.tokens h.params ++
    [h.closing.1, h.colon.1, h.ret.1, h.brace.1]

def nodes (h : Header) : List Node :=
  .leaf .funcName h.name :: (Params.list h.params).map Param.node ++ [.leaf .retType h.ret]

end Header

inductive Item where
  | type (keyword : TokenOf .typeWord) (name : TokenOf .ident) (eq : TokenOf .assign)
    (target : TypeToken) (semi : TokenOf .semi)
  | global (keyword : TokenOf .varWord) (name : TokenOf .ident) (colon : TokenOf .colon)
    (type : TypeToken) (init : Option (TokenOf .assign × LiteralToken)) (semi : TokenOf .semi)
  | func (header : Header) (body : List Stmt) (close : TokenOf .rbrace)

namespace Item

def tokens : Item → List Token
  | .type keyword name eq target semi => [keyword.1, name.1, eq.1, target.1, semi.1]
  | .global keyword name colon ty init semi =>
    [keyword.1, name.1, colon.1, ty.1] ++ init.toList.flatMap (fun i => [i.1.1, i.2.1]) ++
      [semi.1]
  | .func header body close => header.tokens ++ body.flatMap Stmt.tokens ++ [close.1]

def node : Item → Node
  | .type keyword name _ target _ =>
    .branch .typeKw keyword [.leaf .typeName name, .leaf .typeTarget target]
  | .global keyword name _ ty init _ =>
    .branch .globalKw keyword ([.leaf .globalName name, .leaf .globalType ty] ++
      init.toList.map fun i => .leaf .globalInit i.2)
  | .func header body close =>
    .branch .funcKw header.keyword
      (header.nodes ++ body.map Stmt.node ++ [.leaf .bodyClose close])

def function (header : Header) (body : List Stmt) (close : TokenOf .rbrace) : Function :=
  ⟨header.name, (Params.list header.params).map Param.param, header.ret, body.map Stmt.node, close⟩

def item : Item → ThreeAddress.Item
  | .type _ name _ target _ => .type name target
  | .global _ name _ ty init _ => .global name ty (init.map (·.2.1))
  | .func header body close => .func (function header body close)

end Item

structure File where
  items : List Item
  eof : TokenOf .eof

namespace File

def tokens (f : File) : List Token := f.items.flatMap Item.tokens ++ [f.eof.1]

def nodes (f : File) : List Node := f.items.map Item.node ++ [.leaf .finished f.eof]

end File

theorem mapM_leafToken (owner : Node) (k : State) (ts : List Token) :
    (ts.map (Node.leaf k)).mapM (fun a => owner.leafToken k (some a)) = .ok ts := by
  induction ts with
  | nil => rfl
  | cons t ts ih =>
    rw [List.map_cons, List.mapM_cons, ih]
    simp [Node.leafToken, bind, Except.bind, pure, Except.pure]

@[simp] theorem Term.ofOperand_node (owner : Node) (t : Term) :
    Expr.ofOperand owner (some t.node) = .ok t.expr := by
  cases t with
  | literal t => rfl
  | name t => rfl
  | call f opening args closing =>
    simp only [node, Expr.ofOperand, mapM_leafToken]
    rfl

theorem Flat.ofTail_nodes (owner : Node) (tail : List (OperatorToken × Term)) :
    Expr.ofTail owner (tail.flatMap fun p => [Node.leaf .binOp p.1.token, p.2.node]) =
      .ok (tail.map fun p => (p.1.op, p.1.token, p.2.expr)) := by
  induction tail with
  | nil => rfl
  | cons p tail ih =>
    have hop := p.1.op_eq
    simp only [List.flatMap_cons, List.cons_append, List.nil_append, Expr.ofTail, hop,
      Term.ofOperand_node, ih]
    rfl

theorem Flat.ofNodes_nodes (owner : Node) (e : Flat) :
    Expr.ofNodes owner e.nodes = .ok e.expr := by
  have hn : e.nodes = e.first.node ::
      e.tail.flatMap fun p => [Node.leaf .binOp p.1.token, p.2.node] := rfl
  rw [Expr.ofNodes_eq_extend, hn, List.head?_cons, List.tail_cons, Term.ofOperand_node]
  simp [Expr.extend, ofTail_nodes, Except.bind, Except.map, expr, List.foldl_map]

theorem Flat.nodes_ne_nil (e : Flat) : e.nodes ≠ [] := by
  simp [nodes, Chain.flatten]

theorem Stmt.ofNode_node (s : Stmt) : ThreeAddress.Stmt.ofNode s.node = .ok s.stmt := by
  cases s with
  | «local» keyword name colon ty semi => rfl
  | call f opening args closing semi =>
    simp only [node, ThreeAddress.Stmt.ofNode, Node.kind, Node.children, List.tail_cons,
      mapM_leafToken]
    rfl
  | valued head value semi =>
    have hv := Flat.ofNodes_nodes (.branch head.kind head.token (head.nodes ++ value.nodes)) value
    cases head with
    | ret keyword =>
      simp only [node, ThreeAddress.Stmt.ofNode, Head.kind, Node.kind, Node.children, Head.nodes,
        List.nil_append] at hv ⊢
      rw [hv]
      rfl
    | assign name eq =>
      simp only [node, ThreeAddress.Stmt.ofNode, Head.kind, Node.kind, Node.children, Head.nodes,
        List.cons_append, List.nil_append, List.tail_cons] at hv ⊢
      rw [hv]
      rfl
    | «local» keyword name colon ty eq =>
      obtain ⟨n, ns, hn⟩ := List.exists_cons_of_ne_nil value.nodes_ne_nil
      simp only [node, ThreeAddress.Stmt.ofNode, Head.kind, Node.kind, Node.children, Head.nodes,
        List.cons_append, List.nil_append, List.drop_succ_cons, List.drop_zero] at hv ⊢
      rw [hn] at hv ⊢
      simp only [hv]
      rfl

theorem Param.splitParams_nodes (ps : List Param) (rest : List Node)
    (hr : Function.splitParams rest = .ok ([], rest)) :
    Function.splitParams (ps.map node ++ rest) = .ok (ps.map param, rest) := by
  induction ps with
  | nil => exact hr
  | cons p ps ih =>
    simp only [List.map_cons, List.cons_append, node, Function.splitParams] at ih ⊢
    simp [ih, Node.leafToken, param, bind, Except.bind, pure, Except.pure]

theorem Item.ofNode_func (header : Header) (body : List Stmt) (close : TokenOf .rbrace) :
    Function.ofNode (Item.func header body close).node = .ok (function header body close) := by
  let rest := Node.leaf .retType header.ret :: body.map Stmt.node ++ [Node.leaf .bodyClose close]
  have hc : (Item.func header body close).node.children =
      .leaf .funcName header.name :: ((Params.list header.params).map Param.node ++ rest) := by
    simp [node, Node.children, Header.nodes, rest]
  have hs := Param.splitParams_nodes (Params.list header.params) rest rfl
  have hl : (Node.leaf .funcName header.name ::
      ((Params.list header.params).map Param.node ++ rest)).getLast? =
        some (.leaf .bodyClose close) := by
    simp [rest, List.getLast?_cons]
  simp only [Function.ofNode, hc, List.tail_cons, hs, hl]
  simp [Node.leafToken, rest, bind, Except.bind, pure, Except.pure, function]

theorem Item.ofNode_node (i : Item) : ThreeAddress.Item.ofNode i.node = .ok i.item := by
  cases i with
  | type keyword name eq target semi => rfl
  | «global» keyword name colon ty init semi =>
    cases init with
    | none => rfl
    | some i => rfl
  | func header body close =>
    have h := ofNode_func header body close
    simp only [ThreeAddress.Item.ofNode]
    rw [h]
    rfl

end Phrase

end ThreeAddress
