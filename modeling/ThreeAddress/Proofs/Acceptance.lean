import ThreeAddress.Proofs.Concatenation
import ThreeAddress.Proofs.Layout
import ThreeAddress.Proofs.Reading

namespace ThreeAddress

namespace Grammar

variable {k : TokenKind}

theorem typeName_of (h : k.isTypeName = true) (next : State) : typeName next k = some next :=
  if_pos h

theorem literal_of (h : k.isLiteral = true) (next : State) : literal next k = some next := by
  cases k <;> first | rfl | cases h

theorem value_of (h : k.isValue = true) (next : State) : value next k = some next := by
  cases k <;> first | rfl | cases h

theorem operand_of (h : k.isLiteral = true) : operand k = some .operand := by
  cases k <;> first | rfl | cases h

theorem operator_of {op : Operator} (h : Operator.ofKind? k = some op) :
    operator k = some .binOp := by
  cases k <;> first | rfl | cases h

/-- A state behind an operand. -/
def BehindOperand (s : State) : Prop := ∀ k s', operator k = some s' → next s k = some s'

end Grammar

namespace Builder

variable (ns : List Node) (marks : List Mark) (blocks : List Block) (items : List Node) (t : Token)
  {s : State}

theorem enter_skip (b : Builder) (h : s.action = .skip) : b.enter s t = some b := by
  rw [enter, h]

theorem enter_shift (h : s.action = .shift) :
    (Builder.mk (.of ns) marks blocks items).enter s t =
      some ⟨.of (ns ++ [Node.leaf s t]), marks, blocks, items⟩ := by
  rw [enter, h]
  simp [shift]

end Builder

namespace Parser

/-- Reading the tokens leads from one parser to the other. -/
def Reads (p : Parser) (ts : List Token) (p' : Parser) : Prop :=
  ∀ file rest, p.run Grammar.table file (ts ++ rest) = p'.run Grammar.table file rest

namespace Reads

variable {p p' p'' : Parser} {ts us : List Token}

theorem nil (p : Parser) : p.Reads [] p := fun _ _ => rfl

theorem append (h : p.Reads ts p') (h' : p'.Reads us p'') : p.Reads (ts ++ us) p'' := by
  intro file rest
  rw [List.append_assoc, h, h']

theorem cons {s s' : State} {b b' : Builder} {t : Token}
    (hnext : Grammar.next s t.kind = some s') (henter : b.enter s' t = some b')
    (hopen : s' ≠ .finished) (h : Reads ⟨s', b'⟩ ts p') : Reads ⟨s, b⟩ (t :: ts) p' := by
  intro file rest
  have hn : Grammar.table.next s t.kind = some s' := hnext
  simp only [List.cons_append, run, step, hn, henter, hopen, false_and, if_false]
  exact h file rest

/-- A token of a fixed kind. -/
theorem token {k : TokenKind} (t : Phrase.TokenOf k) {s s' : State} {b b' : Builder}
    (hnext : Grammar.next s k = some s') (henter : b.enter s' t = some b')
    (hopen : s' ≠ .finished) (h : Reads ⟨s', b'⟩ ts p') : Reads ⟨s, b⟩ (t.1 :: ts) p' :=
  cons (t.2.symm ▸ hnext) henter hopen h

end Reads

end Parser

namespace Phrase

open ThreeAddress.Parser (Reads)

variable (ns : List Node) (marks : List Mark) (blocks : List Block) (items : List Node)

section
variable {arg comma close : State}
  (ha : Grammar.next arg = fun k =>
    (Grammar.only .comma comma k).or (Grammar.only .rparen close k))
  (hc : Grammar.next comma = Grammar.value arg) (harg : arg.action = .shift)
  (hcomma : comma.action = .skip) (hne : arg ≠ .finished ∧ comma ≠ .finished)
include ha hc harg hcomma hne

theorem Args.reads_tail (tail : List (TokenOf .comma × ValueToken)) :
    Reads ⟨arg, ⟨.of ns, marks, blocks, items⟩⟩ (tail.flatMap fun p => [p.1.1] ++ [p.2.1])
      ⟨arg, ⟨.of (ns ++ tail.map fun p => Node.leaf arg p.2.1), marks, blocks, items⟩⟩ := by
  induction tail generalizing ns with
  | nil => simpa using Reads.nil _
  | cons p tail ih =>
    have hkind : Grammar.next arg .comma = some comma := by simp [ha, Grammar.only]
    have hvalue : Grammar.next comma p.2.1.kind = some arg := by rw [hc, Grammar.value_of p.2.2]
    have hstep := ih (ns ++ [Node.leaf arg p.2.1])
    rw [List.append_assoc] at hstep
    exact .token p.1 hkind (Builder.enter_skip _ _ hcomma) hne.2
      (.cons hvalue (Builder.enter_shift ns marks blocks items _ harg) hne.1 hstep)

/-- Arguments are recorded one behind the other, up to where the parentheses can close. -/
theorem Args.reads {opened : State}
    (ho : Grammar.next opened = fun k => (Grammar.value arg k).or (Grammar.only .rparen close k))
    (args : Option Args) :
    ∃ s, Grammar.next s .rparen = some close ∧
      Reads ⟨opened, ⟨.of ns, marks, blocks, items⟩⟩ (Args.tokens args)
        ⟨s, ⟨.of (ns ++ (Args.values args).map (.leaf arg)), marks, blocks, items⟩⟩ := by
  cases args with
  | none =>
    refine ⟨opened, by simp [ho, Grammar.value, Grammar.only], ?_⟩
    simpa [Args.tokens, Args.values] using Reads.nil _
  | some c =>
    have hfirst : Grammar.next opened c.first.1.kind = some arg := by
      simp [ho, Grammar.value_of c.first.2]
    have htail := reads_tail (ns ++ [Node.leaf arg c.first.1]) marks blocks items ha hc harg hcomma
      hne c.tail
    have hnodes : ns ++ (Args.values (some c)).map (.leaf arg) =
        ns ++ [Node.leaf arg c.first.1] ++ c.tail.map fun p => Node.leaf arg p.2.1 := by
      simp [Args.values, Chain.members]
    refine ⟨arg, by simp [ha, Grammar.only], ?_⟩
    rw [hnodes]
    exact .cons hfirst (Builder.enter_shift ns marks blocks items _ harg) hne.1 htail

end

/-- An operand is recorded behind the others. -/
theorem Term.reads {s : State} (hs : Grammar.next s = Grammar.operand) (x : Term) :
    Reads ⟨s, ⟨.of ns, marks, blocks, items⟩⟩ x.tokens
      ⟨x.state, ⟨.of (ns ++ [x.node]), marks, blocks, items⟩⟩ := by
  have hname : Grammar.next s .ident = some .operandName := by rw [hs]; rfl
  cases x with
  | literal t =>
    have hnext : Grammar.next s t.1.kind = some .operand := by rw [hs, Grammar.operand_of t.2]
    exact .cons hnext (Builder.enter_shift ns marks blocks items _ rfl) (by decide) (.nil _)
  | name t => exact .token t hname (Builder.enter_shift ns marks blocks items _ rfl) (by decide) (.nil _)
  | call f opening args closing =>
    let b : Builder := ⟨.of (ns ++ [Node.leaf .operandName f]), marks, blocks, items⟩
    have hwrap : b.enter .callOpen opening =
        some { b with marks := ⟨ns.length, .callOpen, f⟩ :: marks } := by
      simp [b, Builder.enter, State.action, Builder.wrap, Node.token]
    have harg : Grammar.next .callArg = fun k =>
      (Grammar.only .comma .callComma k).or (Grammar.only .rparen .callClose k) := rfl
    have hopen : Grammar.next .callOpen = fun k =>
      (Grammar.value .callArg k).or (Grammar.only .rparen .callClose k) := rfl
    obtain ⟨s', hs', hargs⟩ := Args.reads (ns ++ [Node.leaf .operandName f])
      (⟨ns.length, .callOpen, f⟩ :: marks) blocks items harg rfl rfl rfl (by decide) hopen args
    have hfold := Builder.fold_of ns (.leaf .operandName f :: (Args.values args).map (.leaf .callArg))
      .callOpen f marks blocks items
    rw [List.append_assoc] at hargs
    refine .token f hname (Builder.enter_shift ns marks blocks items _ rfl) (by decide) ?_
    refine .token opening rfl hwrap (by decide) ?_
    exact hargs.append (.token closing hs' hfold (by decide) (.nil _))

theorem Term.behind (x : Term) : Grammar.BehindOperand x.state := by
  intro k s hk
  cases x with
  | literal t => exact hk
  | call f opening args closing => exact hk
  | name t =>
    cases k <;> first | exact hk | cases hk

theorem Flat.reads_tail {s : State} (hs : Grammar.BehindOperand s)
    (tail : List (OperatorToken × Term)) :
    ∃ s', Grammar.BehindOperand s' ∧
      Reads ⟨s, ⟨.of ns, marks, blocks, items⟩⟩ (tail.flatMap fun p => [p.1.token] ++ p.2.tokens)
        ⟨s', ⟨.of (ns ++ tail.flatMap fun p => [Node.leaf .binOp p.1.token] ++ [p.2.node]), marks,
          blocks, items⟩⟩ := by
  induction tail generalizing ns s with
  | nil => exact ⟨s, hs, by simpa using Reads.nil _⟩
  | cons p tail ih =>
    have hnext := hs _ _ (Grammar.operator_of p.1.op_eq)
    have hterm := p.2.reads (ns ++ [Node.leaf .binOp p.1.token]) marks blocks items
      (show Grammar.next .binOp = Grammar.operand from rfl)
    obtain ⟨s', hs', htail⟩ := ih (ns ++ [Node.leaf .binOp p.1.token] ++ [p.2.node]) p.2.behind
    have hshift := Builder.enter_shift ns marks blocks items p.1.token
      (show State.action .binOp = .shift from rfl)
    have hnodes : ns ++ (p :: tail).flatMap (fun p => [Node.leaf .binOp p.1.token] ++ [p.2.node]) =
        ns ++ [Node.leaf .binOp p.1.token] ++ [p.2.node] ++
          tail.flatMap fun p => [Node.leaf .binOp p.1.token] ++ [p.2.node] := by
      simp
    refine ⟨s', hs', ?_⟩
    rw [hnodes, List.flatMap_cons, List.append_assoc]
    exact .cons hnext hshift (by decide) (hterm.append htail)

/-- The operands and operators of an expression are recorded one behind the other. -/
theorem Flat.reads {s : State} (hs : Grammar.next s = Grammar.operand) (e : Flat) :
    ∃ s', Grammar.BehindOperand s' ∧
      Reads ⟨s, ⟨.of ns, marks, blocks, items⟩⟩ e.tokens
        ⟨s', ⟨.of (ns ++ e.nodes), marks, blocks, items⟩⟩ := by
  have hfirst := e.first.reads ns marks blocks items hs
  obtain ⟨s', hs', htail⟩ := reads_tail (ns ++ [e.first.node]) marks blocks items e.first.behind
    e.tail
  rw [List.append_assoc] at htail
  exact ⟨s', hs', hfirst.append htail⟩

/-- A statement up to its expression. -/
theorem Head.reads {s : State} (hs : Grammar.next s = Grammar.statement) (head : Head) :
    Grammar.next head.state = Grammar.operand ∧
      Reads ⟨s, ⟨.of [], [], blocks, items⟩⟩ head.tokens
        ⟨head.state, ⟨.of head.nodes, [⟨0, head.kind, head.token⟩], blocks, items⟩⟩ := by
  have hnext (k : TokenKind) : Grammar.next s k = Grammar.statement k := congrFun hs k
  cases head with
  | «local» keyword name colon type eq =>
    refine ⟨rfl, .token keyword (hnext _) rfl (by decide) (.token name rfl rfl (by decide)
      (.token colon rfl rfl (by decide) (.cons (Grammar.typeName_of type.2 _) rfl (by decide)
        (.token eq rfl rfl (by decide) (.nil _)))))⟩
  | assign name eq => exact ⟨rfl, .token name (hnext _) rfl (by decide) (.token eq rfl rfl (by decide) (.nil _))⟩
  | ret keyword => exact ⟨rfl, .token keyword (hnext _) rfl (by decide) (.nil _)⟩

/-- A statement goes to the block that is open. -/
theorem Stmt.reads {s : State} (hs : Grammar.next s = Grammar.statement) (st : Stmt) :
    Reads ⟨s, ⟨.of [], [], blocks, items⟩⟩ st.tokens
      ⟨.stmtEnd, (Builder.mk (.of []) [] blocks items).attach st.node⟩ := by
  have hnext (k : TokenKind) : Grammar.next s k = Grammar.statement k := congrFun hs k
  cases st with
  | «local» keyword name colon type semi =>
    exact .token keyword (hnext _) rfl (by decide) (.token name rfl rfl (by decide)
      (.token colon rfl rfl (by decide) (.cons (Grammar.typeName_of type.2 _) rfl (by decide)
        (.token semi rfl rfl (by decide) (.nil _)))))
  | valued head value semi =>
    obtain ⟨hoperand, hhead⟩ := head.reads blocks items hs
    obtain ⟨s', hs', hvalue⟩ := value.reads head.nodes [⟨0, head.kind, head.token⟩] blocks items
      hoperand
    have hreduce := Builder.reduce_of (head.nodes ++ value.nodes) head.kind head.token blocks items
    exact (hhead.append hvalue).append (.token semi (hs' _ _ rfl) hreduce (by decide) (.nil _))
  | call f opening args closing semi =>
    have harg : Grammar.next .callStmtArg = fun k =>
      (Grammar.only .comma .callStmtComma k).or (Grammar.only .rparen .callStmtClose k) := rfl
    have hopen : Grammar.next .callStmt = fun k =>
      (Grammar.value .callStmtArg k).or (Grammar.only .rparen .callStmtClose k) := rfl
    obtain ⟨s', hs', hargs⟩ := Args.reads [.leaf .stmtName f] [⟨0, .callStmt, f⟩] blocks items harg
      rfl rfl rfl (by decide) hopen args
    have hreduce := Builder.reduce_of
      (.leaf .stmtName f :: (Args.values args).map (.leaf .callStmtArg)) .callStmt f blocks items
    refine .token f (hnext _) rfl (by decide) (.token opening rfl rfl (by decide) ?_)
    exact hargs.append (.token closing hs' rfl (by decide) (.token semi rfl hreduce (by decide) (.nil _)))

theorem Stmt.reads_all {s : State} (hs : Grammar.next s = Grammar.statement) (block : Block)
    (stmts : List Stmt) :
    ∃ s', Grammar.next s' = Grammar.statement ∧
      Reads ⟨s, ⟨.of [], [], block :: blocks, items⟩⟩ (stmts.flatMap Stmt.tokens)
        ⟨s', ⟨.of [], [],
          { block with children := (stmts.map Stmt.node).reverse ++ block.children } :: blocks,
          items⟩⟩ := by
  induction stmts generalizing s block with
  | nil => exact ⟨s, hs, Reads.nil _⟩
  | cons st stmts ih =>
    have hstep := st.reads (block :: blocks) items hs
    obtain ⟨s', hs', hrest⟩ := ih (show Grammar.next .stmtEnd = Grammar.statement from rfl)
      { block with children := st.node :: block.children }
    have hchildren : ((st :: stmts).map Stmt.node).reverse ++ block.children =
        (stmts.map Stmt.node).reverse ++ st.node :: block.children := by
      simp
    refine ⟨s', hs', ?_⟩
    rw [hchildren]
    exact hstep.append hrest

/-- A parameter is folded into a node by the separator behind it. -/
theorem Param.reads {s close : State} (hs : Grammar.next s .ident = some .paramName) {k : TokenKind}
    (sep : TokenOf k) (hclose : Grammar.next .paramType k = some close)
    (hfold : close.action = .fold) (hne : close ≠ .finished) (p : Param) :
    Reads ⟨s, ⟨.of ns, marks, blocks, items⟩⟩ (p.tokens ++ [sep.1])
      ⟨close, ⟨.of (ns ++ [p.node]), marks, blocks, items⟩⟩ := by
  have hname : (Builder.mk (.of ns) marks blocks items).enter .paramName p.name =
      some ⟨.of (ns ++ [Node.leaf .paramName p.name]), ⟨ns.length, .paramName, p.name⟩ :: marks,
        blocks, items⟩ := by
    simp [Builder.enter, State.action, Builder.begin, Builder.shift]
  have htype := Builder.enter_shift (ns ++ [Node.leaf .paramName p.name])
    (⟨ns.length, .paramName, p.name⟩ :: marks) blocks items p.type.1
    (show State.action .paramType = .shift from rfl)
  rw [List.append_assoc] at htype
  have hsep : (Builder.mk (.of (ns ++ [Node.leaf .paramName p.name, Node.leaf .paramType p.type]))
      (⟨ns.length, .paramName, p.name⟩ :: marks) blocks items).enter close sep =
        some ⟨.of (ns ++ [p.node]), marks, blocks, items⟩ := by
    rw [Builder.enter, hfold]
    exact Builder.fold_of ns [.leaf .paramName p.name, .leaf .paramType p.type] .paramName p.name
      marks blocks items
  exact .token p.name hs hname (by decide) (.token p.colon rfl rfl (by decide)
    (.cons (Grammar.typeName_of p.type.2 _) htype (by decide) (.token sep hclose hsep hne (.nil _))))

/-- Parameters behind a first one, up to the parenthesis. -/
theorem Params.reads_tail {s : State} (hs : Grammar.next s .ident = some .paramName) (first : Param)
    (tail : List (TokenOf .comma × Param)) (closing : TokenOf .rparen) :
    Reads ⟨s, ⟨.of ns, marks, blocks, items⟩⟩
      (first.tokens ++ tail.flatMap (fun p => [p.1.1] ++ p.2.tokens) ++ [closing.1])
      ⟨.paramClose, ⟨.of (ns ++ first.node :: tail.map (·.2.node)), marks, blocks, items⟩⟩ := by
  induction tail generalizing ns s first with
  | nil => simpa using first.reads ns marks blocks items hs closing rfl rfl (by decide)
  | cons p tail ih =>
    have hcomma : Grammar.next .paramType .comma = some .paramComma := rfl
    have hname : Grammar.next .paramComma .ident = some .paramName := rfl
    have hfirst := first.reads ns marks blocks items hs p.1 hcomma rfl (by decide)
    have hrest := ih (ns ++ [first.node]) hname p.2
    simpa using hfirst.append hrest

/-- The parameters with their parentheses. -/
theorem Params.reads (opening : TokenOf .lparen) (ps : Option Params) (closing : TokenOf .rparen) :
    ∃ s, Grammar.next s = Grammar.only .colon .retColon ∧
      Reads ⟨.funcName, ⟨.of ns, marks, blocks, items⟩⟩
        (opening.1 :: (Params.tokens ps ++ [closing.1]))
        ⟨s, ⟨.of (ns ++ (Params.list ps).map Param.node), marks, blocks, items⟩⟩ := by
  cases ps with
  | none =>
    refine ⟨.noParams, rfl, ?_⟩
    rw [Params.list, List.map_nil, List.append_nil]
    exact .token opening rfl rfl (by decide) (.token closing rfl rfl (by decide) (.nil _))
  | some c =>
    have htail := reads_tail ns marks blocks items (show Grammar.next .paramOpen .ident = _ from rfl)
      c.first c.tail closing
    have hnodes : (Params.list (some c)).map Param.node = c.first.node :: c.tail.map (·.2.node) := by
      simp [Params.list, Chain.members]
    refine ⟨.paramClose, rfl, ?_⟩
    rw [hnodes]
    exact .token opening rfl rfl (by decide) htail

/-- A header opens the block of its function. -/
theorem Header.reads {s : State} (hs : Grammar.next s = Grammar.item) (header : Header) :
    Reads ⟨s, ⟨.of [], [], [], items⟩⟩ header.tokens
      ⟨.bodyOpen, ⟨.of [], [], [⟨.funcKw, header.keyword, header.nodes.reverse⟩], items⟩⟩ := by
  have hnext : Grammar.next s .funcWord = some .funcKw := by rw [hs]; rfl
  let mark : Mark := ⟨0, .funcKw, header.keyword⟩
  let front := .leaf .funcName header.name.1 :: (Params.list header.params).map Param.node
  obtain ⟨s', hs', hparams⟩ := Params.reads [.leaf .funcName header.name] [mark] [] items
    header.opening header.params header.closing
  have hcolon : Grammar.next s' .colon = some .retColon := by rw [hs']; rfl
  have hret := Builder.enter_shift front [mark] [] items header.ret.1
    (show State.action .retType = .shift from rfl)
  have hopen := Builder.openBlock_of (front ++ [Node.leaf .retType header.ret]) .funcKw
    header.keyword [] items
  have hend := Reads.token header.colon hcolon (Builder.enter_skip _ _ rfl) (by decide)
    (.cons (Grammar.typeName_of header.ret.2 _) hret (by decide)
      (.token header.brace rfl hopen (by decide) (.nil _)))
  have htokens : header.tokens = header.keyword.1 :: header.name.1 ::
      (header.opening.1 :: (Params.tokens header.params ++ [header.closing.1]) ++
        [header.colon.1, header.ret.1, header.brace.1]) := by
    simp [tokens]
  rw [htokens]
  exact .token header.keyword hnext rfl (by decide) (.token header.name rfl rfl (by decide)
    (hparams.append hend))

/-- A declaration is put behind those in front of it. -/
theorem Item.reads {s : State} (hs : Grammar.next s = Grammar.item) (i : Item) :
    ∃ s', Grammar.next s' = Grammar.item ∧
      Reads ⟨s, ⟨.of [], [], [], items⟩⟩ i.tokens ⟨s', ⟨.of [], [], [], i.node :: items⟩⟩ := by
  have hnext (k : TokenKind) : Grammar.next s k = Grammar.item k := congrFun hs k
  cases i with
  | type keyword name eq target semi =>
    exact ⟨.typeEnd, rfl, .token keyword (hnext _) rfl (by decide) (.token name rfl rfl (by decide)
      (.token eq rfl rfl (by decide) (.cons (Grammar.typeName_of target.2 _) rfl (by decide)
        (.token semi rfl rfl (by decide) (.nil _)))))⟩
  | «global» keyword name colon type init semi =>
    cases init with
    | none =>
      exact ⟨.globalEnd, rfl, .token keyword (hnext _) rfl (by decide) (.token name rfl rfl (by decide)
        (.token colon rfl rfl (by decide) (.cons (Grammar.typeName_of type.2 _) rfl (by decide)
          (.token semi rfl rfl (by decide) (.nil _)))))⟩
    | some i =>
      exact ⟨.globalEnd, rfl, .token keyword (hnext _) rfl (by decide) (.token name rfl rfl (by decide)
        (.token colon rfl rfl (by decide) (.cons (Grammar.typeName_of type.2 _) rfl (by decide)
          (.token i.1 rfl rfl (by decide) (.cons (Grammar.literal_of i.2.2 _) rfl (by decide)
            (.token semi rfl rfl (by decide) (.nil _)))))))⟩
  | func header body close =>
    have hheader := header.reads items hs
    obtain ⟨s', hs', hbody⟩ := Stmt.reads_all [] items (show Grammar.next .bodyOpen = _ from rfl)
      ⟨.funcKw, header.keyword, header.nodes.reverse⟩ body
    have hclose : (Builder.mk (.of []) [] [⟨.funcKw, header.keyword,
        (body.map Stmt.node).reverse ++ header.nodes.reverse⟩] items).enter .bodyClose close =
          some ⟨.of [], [], [], (Item.func header body close).node :: items⟩ := by
      simp [Builder.enter, State.action, Builder.closeBlock, Builder.attach, Item.node]
    have hbrace : Grammar.next s' .rbrace = some .bodyClose := by rw [hs']; rfl
    exact ⟨.bodyClose, rfl, (hheader.append hbody).append (.token close hbrace hclose (by decide) (.nil _))⟩

theorem Item.reads_all {s : State} (hs : Grammar.next s = Grammar.item) (is : List Item) :
    ∃ s', Grammar.next s' = Grammar.item ∧
      Reads ⟨s, ⟨.of [], [], [], items⟩⟩ (is.flatMap Item.tokens)
        ⟨s', ⟨.of [], [], [], (is.map Item.node).reverse ++ items⟩⟩ := by
  induction is generalizing s items with
  | nil => exact ⟨s, hs, Reads.nil _⟩
  | cons i is ih =>
    obtain ⟨s₁, hs₁, hfirst⟩ := i.reads items hs
    obtain ⟨s₂, hs₂, hrest⟩ := ih (i.node :: items) hs₁
    refine ⟨s₂, hs₂, ?_⟩
    simpa using hfirst.append hrest

/-- The parser accepts the tokens of a file. -/
theorem File.parse_tokens (f : File) (rest : List Token) :
    parse Grammar.table (f.tokens ++ rest) = .ok ⟨Token.fileOf (f.tokens ++ rest), f.nodes⟩ := by
  obtain ⟨s, hs, hitems⟩ := Item.reads_all [] (show Grammar.next .start = _ from rfl) f.items
  have hnext : Grammar.table.next s f.eof.1.kind = some .finished := by
    rw [f.eof.2]
    exact congrFun hs .eof
  rw [parse, Parser.start]
  generalize Token.fileOf (f.tokens ++ rest) = file
  rw [tokens, List.append_assoc]
  refine (hitems file _).trans ?_
  simp [Parser.run, Parser.step, hnext, Builder.enter, State.action, Builder.finish, Builder.settled, nodes]

/-- Tokens that are those of a file but for their places give a tree that reads as the file does. -/
theorem File.exists_parse (f : File) {ts : List Token}
    (hts : ts.map (Token.move .nowhere) = f.tokens) :
    ∃ t p, parse Grammar.table ts = .ok t ∧ t.program = .ok p ∧ p.Alike f.program := by
  have hmoved := f.parse_tokens []
  rw [List.append_nil, ← hts] at hmoved
  obtain ⟨t, ht⟩ : ∃ t, parse Grammar.table ts = .ok t :=
    Parser.exists_run_of_carry (p := .start) (m := .nowhere) (Token.fileOf ts) hmoved
  have hitems : t.items.map (Node.move .nowhere) = f.nodes := by
    have hcarry := Parser.run_carry .nowhere [] (Token.fileOf (ts.map (Token.move .nowhere))) ht
    exact (Tree.mk.inj (Except.ok.inj (hcarry.symm.trans hmoved))).2
  obtain ⟨g, -, -, htree⟩ := parse_ok ht
  have hg : t.program = .ok g.program := File.program_of_items (by rw [htree])
  have hmove : (Tree.mk "" f.nodes).declarations = t.declarations.map (Node.move .nowhere) := by
    rw [Tree.declarations, Tree.declarations, ← hitems, List.filter_map]
    simp [Function.comp_def]
  have hf : f.program = g.program.map (Decl.move .nowhere) := by
    have hprogram : (Tree.mk "" f.nodes).program = .ok f.program := File.program_of_items rfl
    rw [Tree.program, hmove] at hprogram
    exact Except.ok.inj (hprogram.symm.trans (Decl.mapM_ofNode_move hg))
  exact ⟨t, g.program, ht, hg, hf ▸ Program.alike_move .nowhere g.program⟩

end Phrase

/-- A text that is laid out for the tokens of a file lexes and parses, and it reads as the file
does. -/
theorem Layout.exists_tree {budget : Budget} (hb : budget.check = none) {n : Nat} {text : List Char}
    {items : List Phrase.Item} (h : Layout n text (items.flatMap Phrase.Item.tokens))
    (file : String) :
    ∃ ts t p, tokenize budget file (.ofBytes (String.ofList text).toUTF8.toList) = .ok ts ∧
      parse Grammar.table ts = .ok t ∧ t.program = .ok p ∧
      p.Alike (items.map Phrase.Item.decl) := by
  obtain ⟨ts, hts, hmoved⟩ := h.exists_tokens hb file
  obtain ⟨t, p, ht, hp, halike⟩ := Phrase.File.exists_parse ⟨items, ⟨.bare .eof "", rfl⟩⟩ hmoved
  exact ⟨ts, t, p, hts, ht, hp, halike⟩

end ThreeAddress
