import ThreeAddress.Proofs.Decoding
import ThreeAddress.Proofs.Reading
import ThreeAddress.Proofs.Results

namespace ThreeAddress

namespace TokenKind

/-- Kinds that the grammar leaves open: names, types, literals and operators. -/
def isContent (k : TokenKind) : Bool :=
  k.isTypeName || k.isLiteral || (Operator.ofKind? k).isSome

end TokenKind

/-- What stands at a place of a written file: a token that a view holds, or any token of the kind
that the grammar fixes there. -/
inductive Piece where
  | kept (t : Token)
  | fixed (k : TokenKind)
  deriving DecidableEq

namespace Piece

def Spells : Piece → Token → Prop
  | .kept u, t => t = u
  | .fixed k, t => t.kind = k

def token? : Piece → Option Token
  | .kept t => some t
  | .fixed _ => none

/-- Members of a list with commas between them. -/
def commas : List (List Piece) → List Piece
  | [] => []
  | [m] => m
  | m :: ms => m ++ .fixed .comma :: commas ms

def args (values : List Token) : List Piece := commas (values.map fun t => [.kept t])

end Piece

open Piece

namespace Expr

def pieces : Expr → List Piece
  | .literal t => [.kept t]
  | .name t => [.kept t]
  | .call callee values => [.kept callee, .fixed .lparen] ++ args values ++ [.fixed .rparen]
  | .binary _ t lhs rhs => lhs.pieces ++ .kept t :: rhs.pieces

@[simp] theorem pieces_append (op : Operator) (t : Token) (operand e : Expr) :
    (append op t operand e).pieces = e.pieces ++ .kept t :: operand.pieces := by
  induction e with
  | literal u => rfl
  | name u => rfl
  | call f values => rfl
  | binary op' t' lhs rhs _ ih =>
    rw [append]
    split
    · simp [pieces, ih]
    · simp [pieces]

end Expr

def Stmt.pieces : Stmt → List Piece
  | .local name type init =>
    [.fixed .varWord, .kept name, .fixed .colon, .kept type] ++
      init.toList.flatMap (fun e => .fixed .assign :: e.pieces) ++ [.fixed .semi]
  | .assign target value => [.kept target, .fixed .assign] ++ value.pieces ++ [.fixed .semi]
  | .call callee values =>
    [.kept callee, .fixed .lparen] ++ args values ++ [.fixed .rparen, .fixed .semi]
  | .ret keyword value => .kept keyword :: value.pieces ++ [.fixed .semi]

def Param.pieces (p : Param) : List Piece := [.kept p.name, .fixed .colon, .kept p.type]

/-- A function with the statements that its nodes read as. -/
def Function.pieces (f : Function) (body : List Stmt) : List Piece :=
  [.fixed .funcWord, .kept f.name, .fixed .lparen] ++ commas (f.params.map Param.pieces) ++
    [.fixed .rparen, .fixed .colon, .kept f.ret, .fixed .lbrace] ++ body.flatMap Stmt.pieces ++
    [.kept f.close]

def Item.pieces : Item → Except Malformed (List Piece)
  | .type name target =>
    .ok [.fixed .typeWord, .kept name, .fixed .assign, .kept target, .fixed .semi]
  | .global name ty init =>
    .ok ([.fixed .varWord, .kept name, .fixed .colon, .kept ty] ++
      init.toList.flatMap (fun t => [.fixed .assign, .kept t]) ++ [.fixed .semi])
  | .func f => (f.body.mapM Stmt.ofNode).map f.pieces
  | .finish eof => .ok [.kept eof]

/-- The text of a node, through the views. -/
def Node.pieces (n : Node) : Except Malformed (List Piece) := Item.ofNode n >>= Item.pieces

/-- Tokens that the pieces stand for, one for each, where no fixed piece is of an open kind. -/
structure Spelled (ps : List Piece) (ts : List Token) : Prop where
  spells : List.Forall₂ Spells ps ts
  fixed : ∀ k, .fixed k ∈ ps → k.isContent = false

namespace Spelled

variable {ps qs : List Piece} {ts us : List Token}

theorem nil : Spelled [] [] := ⟨.nil, by simp⟩

theorem kept (t : Token) (h : Spelled ps ts) : Spelled (.kept t :: ps) (t :: ts) :=
  ⟨.cons rfl h.spells, by simpa using h.fixed⟩

theorem cons_fixed {k : TokenKind} (t : Phrase.TokenOf k) (hk : k.isContent = false)
    (h : Spelled ps ts) : Spelled (.fixed k :: ps) (t.1 :: ts) :=
  ⟨.cons t.2 h.spells, by simpa [hk] using h.fixed⟩

theorem append (h : Spelled ps ts) (h' : Spelled qs us) : Spelled (ps ++ qs) (ts ++ us) where
  spells := List.rel_append h.spells h'.spells
  fixed k hk := (List.mem_append.mp hk).elim (h.fixed k) (h'.fixed k)

theorem flatMap {α : Type} {f : α → List Piece} {g : α → List Token}
    (h : ∀ a, Spelled (f a) (g a)) (as : List α) : Spelled (as.flatMap f) (as.flatMap g) := by
  induction as with
  | nil => exact nil
  | cons a as ih => exact (h a).append ih

/-- The tokens of open kinds are all held by the views, in the order in which they are written. -/
theorem content (h : Spelled ps ts) :
    (ps.filterMap token?).filter (·.kind.isContent) = ts.filter (·.kind.isContent) := by
  obtain ⟨hs, hf⟩ := h
  induction hs with
  | nil => rfl
  | @cons p t ps ts hp hs ih =>
    have ih := ih fun k hk => hf k (List.mem_cons_of_mem _ hk)
    cases p with
    | kept u =>
      obtain rfl : t = u := hp
      simp [token?, List.filter_cons, ih]
    | fixed k =>
      obtain rfl : t.kind = k := hp
      have hk := hf t.kind List.mem_cons_self
      have hp : token? (.fixed t.kind) = none := rfl
      simp [hp, hk, ih]

end Spelled

namespace Phrase

theorem Chain.commas_members {α : Type} {f : α → List Piece} {g : α → List Token}
    (h : ∀ a, Spelled (f a) (g a)) (c : Chain α (TokenOf .comma)) :
    Spelled (commas (c.members.map f)) (c.flatten g fun s => [s.1]) := by
  obtain ⟨first, tail⟩ := c
  induction tail generalizing first with
  | nil => simpa [members, flatten, commas] using h first
  | cons p tail ih =>
    have hrest := (ih p.2).cons_fixed p.1 rfl
    simpa [members, flatten, commas] using (h first).append hrest

theorem Args.spelled (as : Option Args) : Spelled (args (values as)) (tokens as) := by
  cases as with
  | none => exact .nil
  | some c =>
    have h : ∀ v : ValueToken, Spelled [.kept v.1] [v.1] := fun v => .kept v.1 .nil
    simpa [args, values, tokens, Function.comp_def] using c.commas_members h

theorem Term.spelled (x : Term) : Spelled x.expr.pieces x.tokens := by
  cases x with
  | literal t => exact .kept t.1 .nil
  | name t => exact .kept t.1 .nil
  | call f opening as closing =>
    have hopen := Spelled.kept f.1 (.cons_fixed opening rfl .nil)
    have hclose := Spelled.cons_fixed closing rfl .nil
    exact (hopen.append (Args.spelled as)).append hclose

theorem Flat.pieces_foldl (tail : List (OperatorToken × Term)) (e : Expr) :
    (tail.foldl (fun l p => Expr.append p.1.op p.1.token p.2.expr l) e).pieces =
      e.pieces ++ tail.flatMap fun p => .kept p.1.token :: p.2.expr.pieces := by
  induction tail generalizing e with
  | nil => simp
  | cons p tail ih => simp [ih]

theorem Flat.spelled (e : Flat) : Spelled e.expr.pieces e.tokens := by
  have htail := Spelled.flatMap (fun p : OperatorToken × Term => .kept p.1.token p.2.spelled) e.tail
  rw [expr, pieces_foldl]
  exact e.first.spelled.append htail

theorem Stmt.spelled (s : Stmt) : Spelled s.stmt.pieces s.tokens := by
  cases s with
  | «local» keyword name colon type semi =>
    exact .cons_fixed keyword rfl (.kept name.1 (.cons_fixed colon rfl (.kept type.1
      (.cons_fixed semi rfl .nil))))
  | call f opening as closing semi =>
    have hopen := Spelled.kept f.1 (.cons_fixed opening rfl .nil)
    have hclose := Spelled.cons_fixed closing rfl (.cons_fixed semi rfl .nil)
    exact (hopen.append (Args.spelled as)).append hclose
  | valued head value semi =>
    have hvalue := value.spelled.append (.cons_fixed semi rfl .nil)
    cases head with
    | ret keyword => exact .kept keyword.1 hvalue
    | assign name eq => exact .kept name.1 (.cons_fixed eq rfl hvalue)
    | «local» keyword name colon type eq =>
      simpa [stmt, Head.stmt, Stmt.pieces, tokens, Head.tokens] using
        Spelled.cons_fixed keyword rfl (.kept name.1 (.cons_fixed colon rfl (.kept type.1
          (.cons_fixed eq rfl hvalue))))

theorem Param.spelled (q : Param) : Spelled q.param.pieces q.tokens :=
  .kept q.name.1 (.cons_fixed q.colon rfl (.kept q.type.1 .nil))

theorem Params.spelled (ps : Option Params) :
    Spelled (commas ((Params.list ps).map fun q => q.param.pieces)) (Params.tokens ps) := by
  cases ps with
  | none => exact .nil
  | some c => exact c.commas_members Param.spelled

namespace Item

theorem pieces_node (i : Item) : ∃ ps, i.node.pieces = .ok ps ∧ Spelled ps i.tokens := by
  cases i with
  | type keyword name eq target semi =>
    exact ⟨_, rfl, .cons_fixed keyword rfl (.kept name.1 (.cons_fixed eq rfl (.kept target.1
      (.cons_fixed semi rfl .nil))))⟩
  | «global» keyword name colon ty init semi =>
    have hend : Spelled (init.toList.flatMap (fun u => [Piece.fixed .assign, .kept u.2.1]) ++
        [Piece.fixed .semi]) (init.toList.flatMap (fun u => [u.1.1, u.2.1]) ++ [semi.1]) := by
      have hinit (u : TokenOf .assign × LiteralToken) :
          Spelled [.fixed .assign, .kept u.2.1] [u.1.1, u.2.1] :=
        .cons_fixed u.1 rfl (.kept u.2.1 .nil)
      exact (Spelled.flatMap hinit init.toList).append (.cons_fixed semi rfl .nil)
    refine ⟨_, ?_, .cons_fixed keyword rfl (.kept name.1 (.cons_fixed colon rfl
      (.kept ty.1 hend)))⟩
    rw [Node.pieces, ofNode_node]
    cases init with
    | none => rfl
    | some u => rfl
  | func header body close =>
    have hhead : Spelled [.fixed .funcWord, .kept header.name.1, .fixed .lparen]
        [header.keyword.1, header.name.1, header.opening.1] :=
      .cons_fixed header.keyword rfl (.kept header.name.1 (.cons_fixed header.opening rfl .nil))
    have hret : Spelled [.fixed .rparen, .fixed .colon, .kept header.ret.1, .fixed .lbrace]
        [header.closing.1, header.colon.1, header.ret.1, header.brace.1] :=
      .cons_fixed header.closing rfl (.cons_fixed header.colon rfl (.kept header.ret.1
        (.cons_fixed header.brace rfl .nil)))
    have hparams := Params.spelled header.params
    have hbody := Spelled.flatMap Stmt.spelled body
    refine ⟨_, ?_, ((hhead.append hparams).append hret).append hbody |>.append (.kept close.1 .nil)⟩
    rw [Node.pieces, ofNode_node]
    change ((body.map Stmt.node).mapM ThreeAddress.Stmt.ofNode).map _ = _
    rw [Stmt.mapM_ofNode]
    simp [Except.map, Function.pieces, function, List.flatMap_map, Function.comp_def]

/-- The views of a declaration exist, down to the statements of a function. -/
theorem readable (i : Item) : ∃ v, ThreeAddress.Item.ofNode i.node = .ok v ∧
    ∀ f, v = .func f → ∀ m ∈ f.body, ∃ s, ThreeAddress.Stmt.ofNode m = .ok s := by
  refine ⟨i.item, ofNode_node i, ?_⟩
  intro f hf m hm
  cases i with
  | type keyword name eq target semi => cases hf
  | «global» keyword name colon type init semi => cases hf
  | func header body close =>
    cases hf
    obtain ⟨s, _, rfl⟩ := List.mem_map.mp hm
    exact ⟨s.stmt, s.ofNode_node⟩

end Item

theorem File.pieces_nodes (f : File) :
    ∃ ps, f.nodes.mapM Node.pieces = .ok ps ∧ Spelled ps.flatten f.tokens := by
  obtain ⟨items, eof⟩ := f
  simp only [nodes, tokens]
  induction items with
  | nil => exact ⟨[[.kept eof.1]], rfl, .kept eof.1 .nil⟩
  | cons i is ih =>
    obtain ⟨p, hp, hi⟩ := i.pieces_node
    obtain ⟨ps, hps, his⟩ := ih
    refine ⟨p :: ps, ?_, ?_⟩
    · rw [List.map_cons, List.cons_append, List.mapM_cons, hp, hps]
      rfl
    · simpa using hi.append his

end Phrase

/-- A tree holds its declarations in the order of the source, then the end token. All of them can be
read, and the views give back the tokens up to the end token, with every name, type, literal and
operator once and in its place. -/
theorem parse_transcribes {ts : List Token} {tree : Tree}
    (h : parse Grammar.table ts = .ok tree) :
    ∃ (us : List Token) (eof : Token) (rest : List Token) (decls : List Node)
      (ps : List (List Piece)),
      ts = us ++ eof :: rest ∧ (∀ t ∈ us, t.kind ≠ .eof) ∧ eof.kind = .eof ∧
      tree.items = decls ++ [.leaf .finished eof] ∧ (∀ n ∈ decls, n.kind ≠ .finished) ∧
      (∀ n ∈ tree.items, ∃ v, Item.ofNode n = .ok v ∧
        ∀ f, v = .func f → ∀ m ∈ f.body, ∃ s, Stmt.ofNode m = .ok s) ∧
      tree.items.mapM Node.pieces = .ok ps ∧
      List.Forall₂ Piece.Spells ps.flatten (us ++ [eof]) ∧
      (ps.flatten.filterMap Piece.token?).filter (·.kind.isContent) =
        us.filter (·.kind.isContent) := by
  obtain ⟨f, rest, hts, hus, rfl⟩ := Phrase.parse_items h
  obtain ⟨ps, hps, hspelled⟩ := f.pieces_nodes
  have heof : f.eof.1.kind.isContent = false := by
    rw [f.eof.2]
    rfl
  refine ⟨f.items.flatMap Phrase.Item.tokens, f.eof.1, rest, f.items.map Phrase.Item.node, ps, ?_,
    hus, f.eof.2, rfl, ?_, ?_, hps, hspelled.spells, ?_⟩
  · simpa [Phrase.File.tokens] using hts
  · intro n hn
    obtain ⟨i, _, rfl⟩ := List.mem_map.mp hn
    exact i.kind_node_ne
  · intro n hn
    rcases List.mem_append.mp hn with hn | hn
    · obtain ⟨i, _, rfl⟩ := List.mem_map.mp hn
      exact i.readable
    · obtain rfl := List.mem_singleton.mp hn
      refine ⟨.finish f.eof.1, rfl, ?_⟩
      intro g hg
      cases hg
  · simpa [Phrase.File.tokens, heof] using hspelled.content

/-- A call between two operators, an empty body and a global without a value. -/
theorem parse_transcribes_nested_call :
    let text := "var g: n; func f(a: int): n { } func h(a: n): n { return 1 * f(a) + a; }"
    ∃ ts tree us eof rest ps, tokenize .unlimited "a" (.ofBytes text.toUTF8.toList) = .ok ts ∧
      parse Grammar.table ts = .ok tree ∧ ts = us ++ eof :: rest ∧
      tree.items.mapM Node.pieces = .ok ps ∧
      List.Forall₂ Piece.Spells ps.flatten (us ++ [eof]) ∧
      (us.filter (·.kind.isContent)).map (·.lexeme) =
        ["g", "n", "f", "a", "int", "n", "h", "a", "n", "n", "1", "*", "f", "a", "+", "a"] := by
  intro text
  have hrun : ((tokenize .unlimited "a" (.ofBytes text.toUTF8.toList)).toOption.bind fun ts =>
      (parse Grammar.table ts).toOption.bind fun tree =>
        (tree.items.mapM Node.pieces).toOption.map fun ps =>
          ((ps.flatten.filterMap Piece.token?).filter (·.kind.isContent)).map (·.lexeme)) =
      some ["g", "n", "f", "a", "int", "n", "h", "a", "n", "n", "1", "*", "f", "a", "+", "a"] := by
    rw [Text.toList_toUTF8_ofList]
    decide +kernel
  obtain ⟨ts, hts, hrun⟩ := Option.bind_eq_some_iff.mp hrun
  obtain ⟨tree, htree, hrun⟩ := Option.bind_eq_some_iff.mp hrun
  have htree := toOption_eq_some.mp htree
  obtain ⟨us, eof, rest, decls, ps, hsplit, -, -, -, -, -, hps, hspells, hkept⟩ :=
    parse_transcribes htree
  rw [hps] at hrun
  refine ⟨ts, tree, us, eof, rest, ps, toOption_eq_some.mp hts, htree, hsplit, hps, hspells, ?_⟩
  rw [← hkept]
  exact Option.some.inj hrun

end ThreeAddress
