import ThreeAddress.Proofs.Phrase
import ThreeAddress.Tree.Parse

namespace ThreeAddress

namespace Waiting

/-- Recorded nodes from the oldest on. -/
def of (ns : List Node) : Waiting := ⟨ns.reverse, ns.length, by simp⟩

@[simp] theorem count_of (ns : List Node) : (of ns).count = ns.length := rfl

@[simp] theorem nodes_of (ns : List Node) : (of ns).nodes = ns.reverse := rfl

@[simp] theorem push_of (n : Node) (ns : List Node) : (of ns).push n = of (ns ++ [n]) := by
  simp [of, push]

theorem split?_of (ns taken : List Node) :
    (of (ns ++ taken)).split? ns.length = some (taken, of ns) := by
  simp [of, split?]

end Waiting

namespace Builder

variable (ns taken : List Node) (k : State) (t : Token) (marks : List Mark) (blocks : List Block)
  (items : List Node)

/-- The innermost construct takes what was recorded since its mark. -/
theorem close_of :
    (Builder.mk (.of (ns ++ taken)) (⟨ns.length, k, t⟩ :: marks) blocks items).close =
      some (⟨ns.length, k, t⟩, taken, ⟨.of ns, marks, blocks, items⟩) := by
  simp [close, Waiting.split?_of]

theorem fold_of :
    (Builder.mk (.of (ns ++ taken)) (⟨ns.length, k, t⟩ :: marks) blocks items).fold =
      some ⟨.of (ns ++ [Node.branch k t taken]), marks, blocks, items⟩ := by
  simp [fold, close_of]

theorem reduce_of :
    (Builder.mk (.of taken) [⟨0, k, t⟩] blocks items).reduce =
      some ((Builder.mk (.of []) [] blocks items).attach (.branch k t taken)) := by
  have h := close_of [] taken k t [] blocks items
  rw [List.nil_append, List.length_nil] at h
  simp [reduce, h]

theorem openBlock_of :
    (Builder.mk (.of taken) [⟨0, k, t⟩] blocks items).openBlock =
      some ⟨.of [], [], ⟨k, t, taken.reverse⟩ :: blocks, items⟩ := by
  have h := close_of [] taken k t [] blocks items
  rw [List.nil_append, List.length_nil] at h
  simp [openBlock, h]

end Builder

namespace Grammar

variable {k want : TokenKind} {next s : State}

theorem only_eq_some (h : only want next k = some s) : k = want ∧ s = next := by
  unfold only at h
  split at h
  · next hk => exact ⟨hk, (Option.some.inj h).symm⟩
  · cases h

theorem typeName_eq_some (h : typeName next k = some s) : k.isTypeName = true ∧ s = next := by
  unfold typeName at h
  split at h
  · next hk => exact ⟨hk, (Option.some.inj h).symm⟩
  · cases h

theorem literal_eq_some (h : literal next k = some s) : k.isLiteral = true ∧ s = next := by
  cases k <;> cases h <;> exact ⟨rfl, rfl⟩

theorem value_eq_some (h : value next k = some s) : k.isValue = true ∧ s = next := by
  cases k <;> cases h <;> exact ⟨rfl, rfl⟩

theorem operand_eq_some (h : operand k = some s) :
    (k.isLiteral = true ∧ s = .operand) ∨ (k = .ident ∧ s = .operandName) := by
  cases k <;> cases h <;> first | exact .inl ⟨rfl, rfl⟩ | exact .inr ⟨rfl, rfl⟩

theorem operator_eq_some (h : operator k = some s) :
    (∃ op, Operator.ofKind? k = some op ∧ s = .binOp) ∨ (k = .semi ∧ s = .stmtEnd) := by
  cases k <;> cases h <;> first | exact .inl ⟨_, rfl, rfl⟩ | exact .inr ⟨rfl, rfl⟩

theorem item_eq_some (h : item k = some s) :
    (k = .typeWord ∧ s = .typeKw) ∨ (k = .varWord ∧ s = .globalKw) ∨
      (k = .funcWord ∧ s = .funcKw) ∨ (k = .eof ∧ s = .finished) := by
  cases k <;> cases h <;> simp

theorem statement_eq_some (h : statement k = some s) :
    (k = .varWord ∧ s = .localKw) ∨ (k = .ident ∧ s = .stmtName) ∨
      (k = .returnWord ∧ s = .returnKw) ∨ (k = .rbrace ∧ s = .bodyClose) := by
  cases k <;> cases h <;> simp

/-- The end token is accepted between declarations only. -/
theorem next_eof {s s' : State} (h : Grammar.next s .eof = some s') : s' = .finished := by
  cases s <;> cases h <;> rfl

/-- Of two kinds of edges, one is taken. -/
theorem or_eq_some {a b : Option State} (h : a.or b = some s) : a = some s ∨ b = some s := by
  cases a with
  | none => exact .inr h
  | some a => exact .inl h

end Grammar

namespace Phrase

/-- An open phrase: the state, the tokens read since it began, and the nodes and marks that it has
on the stacks. -/
structure Part where
  state : State
  tokens : List Token
  pending : List Node
  marks : List Mark

namespace Part

/-- The stacks while the phrase is open. -/
def builder (p : Part) (blocks : List Block) (items : List Node) : Builder :=
  ⟨.of p.pending, p.marks, blocks, items⟩

/-- A token continues the phrase. -/
def Continues (p : Part) (s : State) (t : Token) (p' : Part) : Prop :=
  p'.state = s ∧ p'.tokens = p.tokens ++ [t] ∧
    ∀ blocks items, (p.builder blocks items).enter s t = some (p'.builder blocks items)

/-- A token completes the phrase; its node goes to the enclosing block. -/
def Completes (p : Part) (s : State) (t : Token) (n : Node) (ts : List Token) : Prop :=
  ts = p.tokens ++ [t] ∧
    ∀ blocks items, (p.builder blocks items).enter s t =
      some ((Builder.mk (.of []) [] blocks items).attach n)

end Part

/-- The state behind a declaration. -/
def Item.endState : Item → State
  | .type _ _ _ _ _ => .typeEnd
  | .global _ _ _ _ _ _ => .globalEnd
  | .func _ _ _ => .bodyClose

/-- Inside the parentheses of a call: before an argument, or behind one. -/
inductive ArgsAt where
  | before (l : Lead ValueToken (TokenOf .comma))
  | behind (c : Args)

namespace ArgsAt

def tokens : ArgsAt → List Token
  | .before l => l.flatten (fun v => [v.1]) (fun s => [s.1])
  | .behind c => Args.tokens (some c)

def nodes (leaf : State) : ArgsAt → List Node
  | .before l => l.flatten (fun v => [.leaf leaf v.1]) (fun _ => [])
  | .behind c => (Args.values (some c)).map (.leaf leaf)

/-- The state inside the parentheses, by what was read last. -/
def state (opened arg comma : State) : ArgsAt → State
  | .before .start => opened
  | .before (.behind _ _) => comma
  | .behind _ => arg

/-- What a token does inside parentheses: it is recorded as an argument, passed over as a comma, or
closes them. -/
theorem step (a : ArgsAt) {opened arg comma close s : State} {t : Token}
    (ho : Grammar.next opened = fun k => (Grammar.value arg k).or (Grammar.only .rparen close k))
    (ha : Grammar.next arg = fun k =>
      (Grammar.only .comma comma k).or (Grammar.only .rparen close k))
    (hc : Grammar.next comma = Grammar.value arg)
    (h : Grammar.next (a.state opened arg comma) t.kind = some s) :
    (∃ a' : ArgsAt, a'.state opened arg comma = s ∧ a'.tokens = a.tokens ++ [t] ∧
      ((s = arg ∧ a'.nodes arg = a.nodes arg ++ [Node.leaf arg t]) ∨
        (s = comma ∧ a'.nodes arg = a.nodes arg))) ∨
    (∃ args : Option Args, t.kind = .rparen ∧ s = close ∧ Args.tokens args = a.tokens ∧
      (Args.values args).map (.leaf arg) = a.nodes arg) := by
  have hvalue (l : Lead ValueToken (TokenOf .comma)) (hl : a = .before l)
      (h : Grammar.value arg t.kind = some s) :
      ∃ a' : ArgsAt, a'.state opened arg comma = s ∧ a'.tokens = a.tokens ++ [t] ∧
        s = arg ∧ a'.nodes arg = a.nodes arg ++ [Node.leaf arg t] := by
    obtain ⟨hk, rfl⟩ := Grammar.value_eq_some h
    subst hl
    refine ⟨.behind (l.add ⟨t, hk⟩), rfl, ?_, rfl, ?_⟩
    · simp [tokens, Args.tokens]
    · have hm := Chain.flatten_members (fun v : ValueToken => [Node.leaf s v.1]) (l.add ⟨t, hk⟩)
      rw [Lead.flatten_add] at hm
      simpa [nodes, Args.values, List.map_eq_flatMap] using hm.symm
  cases a with
  | before l =>
    cases l with
    | start =>
      rw [state, ho] at h
      rcases Grammar.or_eq_some h with h | h
      · obtain ⟨a', hs, ht, hn⟩ := hvalue _ rfl h
        exact .inl ⟨a', hs, ht, .inl hn⟩
      · obtain ⟨hk, rfl⟩ := Grammar.only_eq_some h
        exact .inr ⟨none, hk, rfl, rfl, rfl⟩
    | behind c comma =>
      rw [state, hc] at h
      obtain ⟨a', hs, ht, hn⟩ := hvalue _ rfl h
      exact .inl ⟨a', hs, ht, .inl hn⟩
  | behind c =>
    rw [state, ha] at h
    rcases Grammar.or_eq_some h with h | h
    · obtain ⟨hk, rfl⟩ := Grammar.only_eq_some h
      refine .inl ⟨.before (.behind c ⟨t, hk⟩), rfl, ?_, .inr ⟨rfl, ?_⟩⟩
      · simp [tokens, Lead.flatten, Args.tokens]
      · simp [nodes, Lead.flatten, Chain.flatten_members, Args.values, List.map_eq_flatMap]
    · obtain ⟨hk, rfl⟩ := Grammar.only_eq_some h
      exact .inr ⟨some c, hk, rfl, rfl, rfl⟩

end ArgsAt

/-- Inside a declaration, up to the body of a function. -/
inductive Within where
  | typeKw (keyword : TokenOf .typeWord)
  | typeName (keyword : TokenOf .typeWord) (name : TokenOf .ident)
  | typeEq (keyword : TokenOf .typeWord) (name : TokenOf .ident) (eq : TokenOf .assign)
  | typeTarget (keyword : TokenOf .typeWord) (name : TokenOf .ident) (eq : TokenOf .assign)
    (target : TypeToken)
  | globalKw (keyword : TokenOf .varWord)
  | globalName (keyword : TokenOf .varWord) (name : TokenOf .ident)
  | globalColon (keyword : TokenOf .varWord) (name : TokenOf .ident) (colon : TokenOf .colon)
  | globalType (keyword : TokenOf .varWord) (name : TokenOf .ident) (colon : TokenOf .colon)
    (type : TypeToken)
  | globalEq (keyword : TokenOf .varWord) (name : TokenOf .ident) (colon : TokenOf .colon)
    (type : TypeToken) (eq : TokenOf .assign)
  | globalInit (keyword : TokenOf .varWord) (name : TokenOf .ident) (colon : TokenOf .colon)
    (type : TypeToken) (eq : TokenOf .assign) (init : LiteralToken)
  | funcKw (keyword : TokenOf .funcWord)
  | funcName (keyword : TokenOf .funcWord) (name : TokenOf .ident)
  | beforeParam (keyword : TokenOf .funcWord) (name : TokenOf .ident) (opening : TokenOf .lparen)
    (l : Lead Param (TokenOf .comma))
  | paramName (keyword : TokenOf .funcWord) (name : TokenOf .ident) (opening : TokenOf .lparen)
    (l : Lead Param (TokenOf .comma)) (param : TokenOf .ident)
  | paramColon (keyword : TokenOf .funcWord) (name : TokenOf .ident) (opening : TokenOf .lparen)
    (l : Lead Param (TokenOf .comma)) (param : TokenOf .ident) (colon : TokenOf .colon)
  | paramType (keyword : TokenOf .funcWord) (name : TokenOf .ident) (opening : TokenOf .lparen)
    (l : Lead Param (TokenOf .comma)) (param : Param)
  | closed (keyword : TokenOf .funcWord) (name : TokenOf .ident) (opening : TokenOf .lparen)
    (params : Option Params) (closing : TokenOf .rparen)
  | retColon (keyword : TokenOf .funcWord) (name : TokenOf .ident) (opening : TokenOf .lparen)
    (params : Option Params) (closing : TokenOf .rparen) (colon : TokenOf .colon)
  | retType (keyword : TokenOf .funcWord) (name : TokenOf .ident) (opening : TokenOf .lparen)
    (params : Option Params) (closing : TokenOf .rparen) (colon : TokenOf .colon) (ret : TypeToken)

namespace Within

def paramLead (l : Lead Param (TokenOf .comma)) : List Node :=
  l.flatten (fun p => [p.node]) fun _ => []

def paramLeadTokens (l : Lead Param (TokenOf .comma)) : List Token :=
  l.flatten Param.tokens fun s => [s.1]

def part : Within → Part
  | .typeKw kw => ⟨.typeKw, [kw.1], [], [⟨0, .typeKw, kw⟩]⟩
  | .typeName kw n => ⟨.typeName, [kw.1, n.1], [.leaf .typeName n], [⟨0, .typeKw, kw⟩]⟩
  | .typeEq kw n eq => ⟨.typeEq, [kw.1, n.1, eq.1], [.leaf .typeName n], [⟨0, .typeKw, kw⟩]⟩
  | .typeTarget kw n eq target =>
    ⟨.typeTarget, [kw.1, n.1, eq.1, target.1], [.leaf .typeName n, .leaf .typeTarget target],
      [⟨0, .typeKw, kw⟩]⟩
  | .globalKw kw => ⟨.globalKw, [kw.1], [], [⟨0, .globalKw, kw⟩]⟩
  | .globalName kw n => ⟨.globalName, [kw.1, n.1], [.leaf .globalName n], [⟨0, .globalKw, kw⟩]⟩
  | .globalColon kw n colon =>
    ⟨.globalColon, [kw.1, n.1, colon.1], [.leaf .globalName n], [⟨0, .globalKw, kw⟩]⟩
  | .globalType kw n colon ty =>
    ⟨.globalType, [kw.1, n.1, colon.1, ty.1], [.leaf .globalName n, .leaf .globalType ty],
      [⟨0, .globalKw, kw⟩]⟩
  | .globalEq kw n colon ty eq =>
    ⟨.globalEq, [kw.1, n.1, colon.1, ty.1, eq.1], [.leaf .globalName n, .leaf .globalType ty],
      [⟨0, .globalKw, kw⟩]⟩
  | .globalInit kw n colon ty eq init =>
    ⟨.globalInit, [kw.1, n.1, colon.1, ty.1, eq.1, init.1],
      [.leaf .globalName n, .leaf .globalType ty, .leaf .globalInit init], [⟨0, .globalKw, kw⟩]⟩
  | .funcKw kw => ⟨.funcKw, [kw.1], [], [⟨0, .funcKw, kw⟩]⟩
  | .funcName kw n => ⟨.funcName, [kw.1, n.1], [.leaf .funcName n], [⟨0, .funcKw, kw⟩]⟩
  | .beforeParam kw n opening l =>
    ⟨match l with | .start => .paramOpen | .behind _ _ => .paramComma,
      [kw.1, n.1, opening.1] ++ paramLeadTokens l, .leaf .funcName n :: paramLead l,
      [⟨0, .funcKw, kw⟩]⟩
  | .paramName kw n opening l p =>
    ⟨.paramName, [kw.1, n.1, opening.1] ++ paramLeadTokens l ++ [p.1],
      .leaf .funcName n :: paramLead l ++ [.leaf .paramName p],
      [⟨(paramLead l).length + 1, .paramName, p⟩, ⟨0, .funcKw, kw⟩]⟩
  | .paramColon kw n opening l p colon =>
    ⟨.paramColon, [kw.1, n.1, opening.1] ++ paramLeadTokens l ++ [p.1, colon.1],
      .leaf .funcName n :: paramLead l ++ [.leaf .paramName p],
      [⟨(paramLead l).length + 1, .paramName, p⟩, ⟨0, .funcKw, kw⟩]⟩
  | .paramType kw n opening l p =>
    ⟨.paramType, [kw.1, n.1, opening.1] ++ paramLeadTokens l ++ p.tokens,
      .leaf .funcName n :: paramLead l ++ [.leaf .paramName p.name, .leaf .paramType p.type],
      [⟨(paramLead l).length + 1, .paramName, p.name⟩, ⟨0, .funcKw, kw⟩]⟩
  | .closed kw n opening ps closing =>
    ⟨match ps with | none => .noParams | some _ => .paramClose,
      [kw.1, n.1, opening.1] ++ Params.tokens ps ++ [closing.1],
      .leaf .funcName n :: (Params.list ps).map Param.node, [⟨0, .funcKw, kw⟩]⟩
  | .retColon kw n opening ps closing colon =>
    ⟨.retColon, [kw.1, n.1, opening.1] ++ Params.tokens ps ++ [closing.1, colon.1],
      .leaf .funcName n :: (Params.list ps).map Param.node, [⟨0, .funcKw, kw⟩]⟩
  | .retType kw n opening ps closing colon ret =>
    ⟨.retType, [kw.1, n.1, opening.1] ++ Params.tokens ps ++ [closing.1, colon.1, ret.1],
      .leaf .funcName n :: (Params.list ps).map Param.node ++ [.leaf .retType ret],
      [⟨0, .funcKw, kw⟩]⟩

theorem paramLead_add (l : Lead Param (TokenOf .comma)) (p : Param) :
    (Params.list (some (l.add p))).map Param.node = paramLead l ++ [p.node] := by
  have h := Chain.flatten_members (fun p : Param => [p.node]) (l.add p)
  rw [Lead.flatten_add] at h
  rw [paramLead, h, Params.list, List.map_eq_flatMap]

theorem paramLeadTokens_add (l : Lead Param (TokenOf .comma)) (p : Param) :
    Params.tokens (some (l.add p)) = paramLeadTokens l ++ p.tokens := by
  rw [Params.tokens, Lead.flatten_add, paramLeadTokens]

/-- In front of a parameter stands its name, or the end of an empty list. -/
theorem step_beforeParam (kw : TokenOf .funcWord) (n : TokenOf .ident) (opening : TokenOf .lparen)
    (l : Lead Param (TokenOf .comma)) {t : Token} {s : State}
    (h : Grammar.next (beforeParam kw n opening l).part.state t.kind = some s) :
    ∃ w : Within, (beforeParam kw n opening l).part.Continues s t w.part := by
  have hp (hk : t.kind = .ident) : (beforeParam kw n opening l).part.Continues .paramName t
      (paramName kw n opening l ⟨t, hk⟩).part := by
    refine ⟨rfl, by simp [part], fun blocks items => ?_⟩
    simp [Part.builder, part, Builder.enter, State.action, Builder.begin, Builder.shift]
  cases l with
  | behind c comma =>
    obtain ⟨hk, rfl⟩ := Grammar.only_eq_some h
    exact ⟨_, hp hk⟩
  | start =>
    rcases Grammar.or_eq_some h with h | h
    · obtain ⟨hk, rfl⟩ := Grammar.only_eq_some h
      exact ⟨_, hp hk⟩
    · obtain ⟨hk, rfl⟩ := Grammar.only_eq_some h
      exact ⟨closed kw n opening none ⟨t, hk⟩, rfl, rfl, fun _ _ => rfl⟩

/-- Either separator folds a parameter into a node behind the others. -/
theorem step_paramType (kw : TokenOf .funcWord) (n : TokenOf .ident) (opening : TokenOf .lparen)
    (l : Lead Param (TokenOf .comma)) (p : Param) {t : Token} {s : State}
    (h : Grammar.next (paramType kw n opening l p).part.state t.kind = some s) :
    ∃ w : Within, (paramType kw n opening l p).part.Continues s t w.part := by
  have hfold (blocks : List Block) (items : List Node) :
      ((paramType kw n opening l p).part.builder blocks items).fold =
        some ⟨.of (.leaf .funcName n :: paramLead l ++ [p.node]), [⟨0, .funcKw, kw⟩], blocks,
          items⟩ :=
    Builder.fold_of (.leaf .funcName n :: paramLead l)
      [.leaf .paramName p.name, .leaf .paramType p.type] .paramName p.name [⟨0, .funcKw, kw⟩]
      blocks items
  rcases Grammar.or_eq_some h with h | h
  · obtain ⟨hk, rfl⟩ := Grammar.only_eq_some h
    refine ⟨beforeParam kw n opening (.behind (l.add p) ⟨t, hk⟩), rfl, ?_, ?_⟩
    · simp [part, paramLeadTokens, Lead.flatten]
    · intro blocks items
      have hl : paramLead (.behind (l.add p) ⟨t, hk⟩) = paramLead l ++ [p.node] := by
        simp [paramLead, Lead.flatten]
      refine (hfold blocks items).trans ?_
      simp [Part.builder, part, hl]
  · obtain ⟨hk, rfl⟩ := Grammar.only_eq_some h
    refine ⟨closed kw n opening (some (l.add p)) ⟨t, hk⟩, rfl, ?_, ?_⟩
    · simp [part, paramLeadTokens_add]
    · intro blocks items
      refine (hfold blocks items).trans ?_
      simp [Part.builder, part, paramLead_add]

theorem step (w : Within) {t : Token} {s : State}
    (h : Grammar.next w.part.state t.kind = some s) :
    (∃ w' : Within, w.part.Continues s t w'.part) ∨
    (∃ i : Item, i.endState = s ∧ w.part.Completes s t i.node i.tokens) ∨
    (∃ hd : Header, s = .bodyOpen ∧ hd.tokens = w.part.tokens ++ [t] ∧
      ∀ blocks items, (w.part.builder blocks items).enter s t =
        some ⟨.of [], [], ⟨.funcKw, hd.keyword, hd.nodes.reverse⟩ :: blocks, items⟩) := by
  cases w with
  | typeKw kw =>
    obtain ⟨hk, rfl⟩ := Grammar.only_eq_some h
    exact .inl ⟨.typeName kw ⟨t, hk⟩, rfl, rfl, fun _ _ => rfl⟩
  | typeName kw n =>
    obtain ⟨hk, rfl⟩ := Grammar.only_eq_some h
    exact .inl ⟨.typeEq kw n ⟨t, hk⟩, rfl, rfl, fun _ _ => rfl⟩
  | typeEq kw n eq =>
    obtain ⟨hk, rfl⟩ := Grammar.typeName_eq_some h
    exact .inl ⟨.typeTarget kw n eq ⟨t, hk⟩, rfl, rfl, fun _ _ => rfl⟩
  | typeTarget kw n eq target =>
    obtain ⟨hk, rfl⟩ := Grammar.only_eq_some h
    exact .inr (.inl ⟨.type kw n eq target ⟨t, hk⟩, rfl, rfl, fun _ _ => rfl⟩)
  | globalKw kw =>
    obtain ⟨hk, rfl⟩ := Grammar.only_eq_some h
    exact .inl ⟨.globalName kw ⟨t, hk⟩, rfl, rfl, fun _ _ => rfl⟩
  | globalName kw n =>
    obtain ⟨hk, rfl⟩ := Grammar.only_eq_some h
    exact .inl ⟨.globalColon kw n ⟨t, hk⟩, rfl, rfl, fun _ _ => rfl⟩
  | globalColon kw n colon =>
    obtain ⟨hk, rfl⟩ := Grammar.typeName_eq_some h
    exact .inl ⟨.globalType kw n colon ⟨t, hk⟩, rfl, rfl, fun _ _ => rfl⟩
  | globalType kw n colon ty =>
    rcases Grammar.or_eq_some h with h | h
    · obtain ⟨hk, rfl⟩ := Grammar.only_eq_some h
      exact .inr (.inl ⟨.global kw n colon ty none ⟨t, hk⟩, rfl, rfl, fun _ _ => rfl⟩)
    · obtain ⟨hk, rfl⟩ := Grammar.only_eq_some h
      exact .inl ⟨.globalEq kw n colon ty ⟨t, hk⟩, rfl, rfl, fun _ _ => rfl⟩
  | globalEq kw n colon ty eq =>
    obtain ⟨hk, rfl⟩ := Grammar.literal_eq_some h
    exact .inl ⟨.globalInit kw n colon ty eq ⟨t, hk⟩, rfl, rfl, fun _ _ => rfl⟩
  | globalInit kw n colon ty eq init =>
    obtain ⟨hk, rfl⟩ := Grammar.only_eq_some h
    exact .inr (.inl ⟨.global kw n colon ty (some (eq, init)) ⟨t, hk⟩, rfl, rfl, fun _ _ => rfl⟩)
  | funcKw kw =>
    obtain ⟨hk, rfl⟩ := Grammar.only_eq_some h
    exact .inl ⟨.funcName kw ⟨t, hk⟩, rfl, rfl, fun _ _ => rfl⟩
  | funcName kw n =>
    obtain ⟨hk, rfl⟩ := Grammar.only_eq_some h
    exact .inl ⟨.beforeParam kw n ⟨t, hk⟩ .start, rfl, rfl, fun _ _ => rfl⟩
  | beforeParam kw n opening l => exact .inl (step_beforeParam kw n opening l h)
  | paramName kw n opening l p =>
    obtain ⟨hk, rfl⟩ := Grammar.only_eq_some h
    exact .inl ⟨.paramColon kw n opening l p ⟨t, hk⟩, rfl, by simp [part], fun _ _ => rfl⟩
  | paramColon kw n opening l p colon =>
    obtain ⟨hk, rfl⟩ := Grammar.typeName_eq_some h
    refine .inl ⟨.paramType kw n opening l ⟨p, colon, ⟨t, hk⟩⟩, rfl, by simp [part, Param.tokens],
      fun blocks items => ?_⟩
    simp [Part.builder, part, Builder.enter, State.action, Builder.shift]
  | paramType kw n opening l p => exact .inl (step_paramType kw n opening l p h)
  | closed kw n opening ps closing =>
    have h' : Grammar.only .colon .retColon t.kind = some s := by cases ps <;> exact h
    obtain ⟨hk, rfl⟩ := Grammar.only_eq_some h'
    refine .inl ⟨.retColon kw n opening ps closing ⟨t, hk⟩, rfl, by simp [part], fun _ _ => rfl⟩
  | retColon kw n opening ps closing colon =>
    obtain ⟨hk, rfl⟩ := Grammar.typeName_eq_some h
    refine .inl ⟨.retType kw n opening ps closing colon ⟨t, hk⟩, rfl, by simp [part],
      fun blocks items => ?_⟩
    simp [Part.builder, part, Builder.enter, State.action, Builder.shift]
  | retType kw n opening ps closing colon ret =>
    obtain ⟨hk, rfl⟩ := Grammar.only_eq_some h
    refine .inr (.inr ⟨⟨kw, n, opening, ps, closing, colon, ret, ⟨t, hk⟩⟩, rfl, ?_, ?_⟩)
    · simp [part, Header.tokens]
    · intro blocks items
      exact Builder.openBlock_of _ .funcKw kw blocks items

end Within

namespace Head

/-- The state behind the head. -/
def state : Head → State
  | .local _ _ _ _ _ => .localEq
  | .assign _ _ => .assignEq
  | .ret _ => .returnKw

end Head

def Term.state : Term → State
  | .literal _ => .operand
  | .name _ => .operandName
  | .call _ _ _ _ => .callClose

namespace Flat

def lead (l : Lead Term OperatorToken) : List Node :=
  l.flatten (fun t => [t.node]) fun o => [.leaf .binOp o.token]

def leadTokens (l : Lead Term OperatorToken) : List Token :=
  l.flatten Term.tokens fun o => [o.token]

theorem nodes_add (l : Lead Term OperatorToken) (t : Term) :
    Flat.nodes (l.add t) = lead l ++ [t.node] := by
  rw [Flat.nodes, Lead.flatten_add, lead]

theorem tokens_add (l : Lead Term OperatorToken) (t : Term) :
    Flat.tokens (l.add t) = leadTokens l ++ t.tokens := by
  rw [Flat.tokens, Lead.flatten_add, leadTokens]

end Flat

/-- Inside a statement. -/
inductive StmtAt where
  | localKw (keyword : TokenOf .varWord)
  | localName (keyword : TokenOf .varWord) (name : TokenOf .ident)
  | localColon (keyword : TokenOf .varWord) (name : TokenOf .ident) (colon : TokenOf .colon)
  | localType (keyword : TokenOf .varWord) (name : TokenOf .ident) (colon : TokenOf .colon)
    (type : TypeToken)
  | name (name : TokenOf .ident)
  | before (head : Head) (l : Lead Term OperatorToken)
  | behind (head : Head) (l : Lead Term OperatorToken) (t : Term)
  | within (head : Head) (l : Lead Term OperatorToken) (callee : TokenOf .ident)
    (opening : TokenOf .lparen) (a : ArgsAt)
  | call (callee : TokenOf .ident) (opening : TokenOf .lparen) (a : ArgsAt)
  | closed (callee : TokenOf .ident) (opening : TokenOf .lparen) (args : Option Args)
    (closing : TokenOf .rparen)

namespace StmtAt

def part : StmtAt → Part
  | .localKw kw => ⟨.localKw, [kw.1], [], [⟨0, .localKw, kw⟩]⟩
  | .localName kw n => ⟨.localName, [kw.1, n.1], [.leaf .localName n], [⟨0, .localKw, kw⟩]⟩
  | .localColon kw n colon =>
    ⟨.localColon, [kw.1, n.1, colon.1], [.leaf .localName n], [⟨0, .localKw, kw⟩]⟩
  | .localType kw n colon ty =>
    ⟨.localType, [kw.1, n.1, colon.1, ty.1], [.leaf .localName n, .leaf .localType ty],
      [⟨0, .localKw, kw⟩]⟩
  | .name n => ⟨.stmtName, [n.1], [.leaf .stmtName n], [⟨0, .stmtName, n⟩]⟩
  | .before head l =>
    ⟨match l with | .start => head.state | .behind _ _ => .binOp,
      head.tokens ++ Flat.leadTokens l, head.nodes ++ Flat.lead l, [⟨0, head.kind, head.token⟩]⟩
  | .behind head l t =>
    ⟨t.state, head.tokens ++ Flat.leadTokens l ++ t.tokens, head.nodes ++ Flat.lead l ++ [t.node],
      [⟨0, head.kind, head.token⟩]⟩
  | .within head l f opening a =>
    ⟨a.state .callOpen .callArg .callComma,
      head.tokens ++ Flat.leadTokens l ++ [f.1, opening.1] ++ a.tokens,
      head.nodes ++ Flat.lead l ++ .leaf .operandName f :: a.nodes .callArg,
      [⟨(head.nodes ++ Flat.lead l).length, .callOpen, f⟩, ⟨0, head.kind, head.token⟩]⟩
  | .call f opening a =>
    ⟨a.state .callStmt .callStmtArg .callStmtComma, [f.1, opening.1] ++ a.tokens,
      .leaf .stmtName f :: a.nodes .callStmtArg, [⟨0, .callStmt, f⟩]⟩
  | .closed f opening args closing =>
    ⟨.callStmtClose, [f.1, opening.1] ++ Args.tokens args ++ [closing.1],
      .leaf .stmtName f :: (Args.values args).map (.leaf .callStmtArg), [⟨0, .callStmt, f⟩]⟩

/-- An operand is read behind a head or an operator. -/
theorem step_before (head : Head) (l : Lead Term OperatorToken) {t : Token} {s : State}
    (h : Grammar.operand t.kind = some s) :
    ∃ p : StmtAt, (StmtAt.before head l).part.Continues s t p.part := by
  rcases Grammar.operand_eq_some h with ⟨hk, rfl⟩ | ⟨hk, rfl⟩
  · refine ⟨.behind head l (.literal ⟨t, hk⟩), rfl, by simp [part, Term.tokens], ?_⟩
    intro blocks items
    simp [Part.builder, part, Builder.enter, State.action, Builder.shift, Term.node]
  · refine ⟨.behind head l (.name ⟨t, hk⟩), rfl, by simp [part, Term.tokens], ?_⟩
    intro blocks items
    simp [Part.builder, part, Builder.enter, State.action, Builder.shift, Term.node]

/-- Behind an operand stands an operator or the end of the statement. -/
theorem step_behind (head : Head) (l : Lead Term OperatorToken) (x : Term) {t : Token} {s : State}
    (h : Grammar.operator t.kind = some s) :
    (∃ p : StmtAt, (StmtAt.behind head l x).part.Continues s t p.part) ∨
    (∃ st : Stmt, s = .stmtEnd ∧
      (StmtAt.behind head l x).part.Completes s t st.node st.tokens) := by
  rcases Grammar.operator_eq_some h with ⟨op, hop, rfl⟩ | ⟨hk, rfl⟩
  · refine .inl ⟨.before head (.behind (l.add x) ⟨t, op, hop⟩), rfl, ?_, ?_⟩
    · simp [part, Flat.leadTokens, Lead.flatten]
    · intro blocks items
      have hl : Flat.lead (.behind (l.add x) ⟨t, op, hop⟩) =
          Flat.lead l ++ [x.node, .leaf .binOp t] := by
        simp [Flat.lead, Lead.flatten]
      simp [Part.builder, part, Builder.enter, State.action, Builder.shift, hl]
  · refine .inr ⟨.valued head (l.add x) ⟨t, hk⟩, rfl, ?_, ?_⟩
    · simp [part, Stmt.tokens, Flat.tokens_add]
    · intro blocks items
      have hr := Builder.reduce_of (head.nodes ++ Flat.lead l ++ [x.node]) head.kind head.token
        blocks items
      refine Eq.trans hr ?_
      rw [Stmt.node, Flat.nodes_add, List.append_assoc]

/-- A parenthesis turns the name read last into a call. -/
theorem step_open (head : Head) (l : Lead Term OperatorToken) (f : TokenOf .ident) {t : Token}
    (hk : t.kind = .lparen) :
    (StmtAt.behind head l (.name f)).part.Continues .callOpen t
      (StmtAt.within head l f ⟨t, hk⟩ (.before .start)).part := by
  refine ⟨rfl, ?_, ?_⟩
  · simp [part, Term.tokens, ArgsAt.tokens, Lead.flatten]
  · intro blocks items
    simp [Part.builder, part, Builder.enter, State.action, Builder.wrap, Term.node, Node.token,
      ArgsAt.nodes, Lead.flatten]

theorem step_within (head : Head) (l : Lead Term OperatorToken) (f : TokenOf .ident)
    (opening : TokenOf .lparen) (a : ArgsAt) {t : Token} {s : State}
    (h : Grammar.next (a.state .callOpen .callArg .callComma) t.kind = some s) :
    ∃ p : StmtAt, (StmtAt.within head l f opening a).part.Continues s t p.part := by
  rcases a.step rfl rfl rfl h with ⟨a', hs, ht, hn⟩ | ⟨args, hk, rfl, ht, hn⟩
  · refine ⟨.within head l f opening a', hs, by simp [part, ht], ?_⟩
    intro blocks items
    rcases hn with ⟨rfl, hn⟩ | ⟨rfl, hn⟩ <;>
      simp [Part.builder, part, Builder.enter, State.action, Builder.shift, hn]
  · refine ⟨.behind head l (.call f opening args ⟨t, hk⟩), rfl, by simp [part, Term.tokens, ht], ?_⟩
    intro blocks items
    have hf := Builder.fold_of (head.nodes ++ Flat.lead l) (.leaf .operandName f :: a.nodes .callArg)
      .callOpen f [⟨0, head.kind, head.token⟩] blocks items
    rw [← hn] at hf
    refine Eq.trans ?_ hf
    rw [hn]
    rfl

theorem step_call (f : TokenOf .ident) (opening : TokenOf .lparen) (a : ArgsAt) {t : Token}
    {s : State} (h : Grammar.next (a.state .callStmt .callStmtArg .callStmtComma) t.kind = some s) :
    ∃ p : StmtAt, (StmtAt.call f opening a).part.Continues s t p.part := by
  rcases a.step rfl rfl rfl h with ⟨a', hs, ht, hn⟩ | ⟨args, hk, rfl, ht, hn⟩
  · refine ⟨.call f opening a', hs, by simp [part, ht], ?_⟩
    intro blocks items
    rcases hn with ⟨rfl, hn⟩ | ⟨rfl, hn⟩ <;>
      simp [Part.builder, part, Builder.enter, State.action, Builder.shift, hn]
  · refine ⟨.closed f opening args ⟨t, hk⟩, rfl, by simp [part, ht], ?_⟩
    intro blocks items
    simp [Part.builder, part, Builder.enter, State.action, hn]

theorem step (p : StmtAt) {t : Token} {s : State}
    (h : Grammar.next p.part.state t.kind = some s) :
    (∃ p' : StmtAt, p.part.Continues s t p'.part) ∨
    (∃ st : Stmt, s = .stmtEnd ∧ p.part.Completes s t st.node st.tokens) := by
  cases p with
  | localKw kw =>
    obtain ⟨hk, rfl⟩ := Grammar.only_eq_some h
    exact .inl ⟨.localName kw ⟨t, hk⟩, rfl, rfl, fun _ _ => rfl⟩
  | localName kw n =>
    obtain ⟨hk, rfl⟩ := Grammar.only_eq_some h
    exact .inl ⟨.localColon kw n ⟨t, hk⟩, rfl, rfl, fun _ _ => rfl⟩
  | localColon kw n colon =>
    obtain ⟨hk, rfl⟩ := Grammar.typeName_eq_some h
    exact .inl ⟨.localType kw n colon ⟨t, hk⟩, rfl, rfl, fun _ _ => rfl⟩
  | localType kw n colon ty =>
    rcases Grammar.or_eq_some h with h | h
    · obtain ⟨hk, rfl⟩ := Grammar.only_eq_some h
      exact .inr ⟨.local kw n colon ty ⟨t, hk⟩, rfl, rfl, fun _ _ => rfl⟩
    · obtain ⟨hk, rfl⟩ := Grammar.only_eq_some h
      exact .inl ⟨.before (.local kw n colon ty ⟨t, hk⟩) .start, rfl, rfl, fun _ _ => rfl⟩
  | name n =>
    rcases Grammar.or_eq_some h with h | h
    · obtain ⟨hk, rfl⟩ := Grammar.only_eq_some h
      exact .inl ⟨.before (.assign n ⟨t, hk⟩) .start, rfl, rfl, fun _ _ => rfl⟩
    · obtain ⟨hk, rfl⟩ := Grammar.only_eq_some h
      exact .inl ⟨.call n ⟨t, hk⟩ (.before .start), rfl, rfl, fun _ _ => rfl⟩
  | before head l =>
    have ho : Grammar.operand t.kind = some s := by
      cases l <;> cases head <;> exact h
    exact .inl (step_before head l ho)
  | behind head l x =>
    cases x with
    | literal x => exact step_behind head l _ h
    | call f opening args closing => exact step_behind head l _ h
    | name f =>
      rcases Grammar.or_eq_some h with h | h
      · obtain ⟨hk, rfl⟩ := Grammar.only_eq_some h
        exact .inl ⟨_, step_open head l f hk⟩
      · exact step_behind head l _ h
  | within head l f opening a => exact .inl (step_within head l f opening a h)
  | call f opening a => exact .inl (step_call f opening a h)
  | closed f opening args closing =>
    obtain ⟨hk, rfl⟩ := Grammar.only_eq_some h
    refine .inr ⟨.call f opening args closing ⟨t, hk⟩, rfl, by simp [part, Stmt.tokens], ?_⟩
    intro blocks items
    exact Builder.reduce_of _ .callStmt f blocks items

end StmtAt

end Phrase

end ThreeAddress
