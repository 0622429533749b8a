import ThreeAddress.Proofs.OpenPhrase

namespace ThreeAddress

namespace Phrase

/-- A place in a file: between declarations, inside one, between the statements of a function, or
inside a statement. -/
inductive Position where
  | between (items : List Item) (s : State) (hs : Grammar.next s = Grammar.item)
  | within (items : List Item) (w : Within)
  | body (items : List Item) (header : Header) (stmts : List Stmt) (s : State)
    (hs : Grammar.next s = Grammar.statement)
  | stmt (items : List Item) (header : Header) (stmts : List Stmt) (p : StmtAt)

namespace Position

def start : Position := .between [] .start rfl

def state : Position → State
  | .between _ s _ => s
  | .within _ w => w.part.state
  | .body _ _ _ s _ => s
  | .stmt _ _ _ p => p.part.state

/-- All tokens read so far. -/
def tokens : Position → List Token
  | .between items _ _ => items.flatMap Item.tokens
  | .within items w => items.flatMap Item.tokens ++ w.part.tokens
  | .body items header stmts _ _ =>
    items.flatMap Item.tokens ++ header.tokens ++ stmts.flatMap Stmt.tokens
  | .stmt items header stmts p =>
    items.flatMap Item.tokens ++ header.tokens ++ stmts.flatMap Stmt.tokens ++ p.part.tokens

/-- The block of a function with its first statements. -/
def block (header : Header) (stmts : List Stmt) : Block :=
  ⟨.funcKw, header.keyword, (header.nodes ++ stmts.map Stmt.node).reverse⟩

def builder : Position → Builder
  | .between items _ _ => ⟨.of [], [], [], (items.map Item.node).reverse⟩
  | .within items w => w.part.builder [] (items.map Item.node).reverse
  | .body items header stmts _ _ =>
    ⟨.of [], [], [block header stmts], (items.map Item.node).reverse⟩
  | .stmt items header stmts p =>
    p.part.builder [block header stmts] (items.map Item.node).reverse

def parser (p : Position) : Parser := ⟨p.state, p.builder⟩

/-- A token leads from a position to another one. -/
def Reaches (p : Position) (s : State) (t : Token) (p' : Position) : Prop :=
  p'.state = s ∧ p'.tokens = p.tokens ++ [t] ∧ p.builder.enter s t = some p'.builder

/-- The last token completes the file. -/
def Finishes (p : Position) (s : State) (t : Token) (f : File) : Prop :=
  s = .finished ∧ f.tokens = p.tokens ++ [t] ∧
    p.builder.enter s t = some ⟨.of [], [], [], f.nodes.reverse⟩

theorem reaches_within (items : List Item) {w w' : Within} {s : State} {t : Token}
    (h : w.part.Continues s t w'.part) : (within items w).Reaches s t (.within items w') := by
  obtain ⟨hs, ht, hb⟩ := h
  exact ⟨hs, by simp [tokens, ht], hb _ _⟩

theorem reaches_stmt (items : List Item) (header : Header) (stmts : List Stmt) {p p' : StmtAt}
    {s : State} {t : Token} (h : p.part.Continues s t p'.part) :
    (stmt items header stmts p).Reaches s t (.stmt items header stmts p') := by
  obtain ⟨hs, ht, hb⟩ := h
  exact ⟨hs, by simp [tokens, ht], hb _ _⟩

theorem step_between (items : List Item) (s : State) (hs : Grammar.next s = Grammar.item)
    {t : Token} {s' : State} (h : Grammar.item t.kind = some s') :
    (∃ p', (between items s hs).Reaches s' t p') ∨
      ∃ f, (between items s hs).Finishes s' t f := by
  rcases Grammar.item_eq_some h with ⟨hk, rfl⟩ | ⟨hk, rfl⟩ | ⟨hk, rfl⟩ | ⟨hk, rfl⟩
  · exact .inl ⟨.within items (.typeKw ⟨t, hk⟩), rfl, rfl, rfl⟩
  · exact .inl ⟨.within items (.globalKw ⟨t, hk⟩), rfl, rfl, rfl⟩
  · exact .inl ⟨.within items (.funcKw ⟨t, hk⟩), rfl, rfl, rfl⟩
  · refine .inr ⟨⟨items, ⟨t, hk⟩⟩, rfl, rfl, ?_⟩
    simp [builder, Builder.enter, State.action, Builder.finish, File.nodes]

theorem step_within (items : List Item) (w : Within) {t : Token} {s : State}
    (h : Grammar.next w.part.state t.kind = some s) :
    ∃ p', (within items w).Reaches s t p' := by
  rcases w.step h with ⟨w', hw⟩ | ⟨i, rfl, ht, hb⟩ | ⟨header, rfl, ht, hb⟩
  · exact ⟨_, reaches_within items hw⟩
  · have hi : Grammar.next i.endState = Grammar.item := by cases i <;> rfl
    refine ⟨.between (items ++ [i]) i.endState hi, rfl, by simp [tokens, ht], ?_⟩
    simp [builder, hb, Builder.attach]
  · refine ⟨.body items header [] .bodyOpen rfl, rfl, by simp [tokens, ht], ?_⟩
    simp [builder, hb, block]

theorem step_body (items : List Item) (header : Header) (stmts : List Stmt) (s : State)
    (hs : Grammar.next s = Grammar.statement) {t : Token} {s' : State}
    (h : Grammar.statement t.kind = some s') :
    ∃ p', (body items header stmts s hs).Reaches s' t p' := by
  rcases Grammar.statement_eq_some h with ⟨hk, rfl⟩ | ⟨hk, rfl⟩ | ⟨hk, rfl⟩ | ⟨hk, rfl⟩
  · exact ⟨.stmt items header stmts (.localKw ⟨t, hk⟩), rfl, rfl, rfl⟩
  · exact ⟨.stmt items header stmts (.name ⟨t, hk⟩), rfl, rfl, rfl⟩
  · exact ⟨.stmt items header stmts (.before (.ret ⟨t, hk⟩) .start), rfl, rfl, rfl⟩
  · refine ⟨.between (items ++ [Item.func header stmts ⟨t, hk⟩]) .bodyClose rfl, rfl, ?_, ?_⟩
    · simp [tokens, Item.tokens]
    · simp [builder, block, Builder.enter, State.action, Builder.closeBlock, Builder.attach,
        Item.node]

theorem step_stmt (items : List Item) (header : Header) (stmts : List Stmt) (p : StmtAt)
    {t : Token} {s : State} (h : Grammar.next p.part.state t.kind = some s) :
    ∃ p', (stmt items header stmts p).Reaches s t p' := by
  rcases p.step h with ⟨p', hp⟩ | ⟨st, rfl, ht, hb⟩
  · exact ⟨_, reaches_stmt items header stmts hp⟩
  · refine ⟨.body items header (stmts ++ [st]) .stmtEnd rfl, rfl, by simp [tokens, ht], ?_⟩
    simp [builder, hb, Builder.attach, block]

/-- Whatever the table allows leads to a position or completes the file. -/
theorem step (p : Position) {t : Token} {s : State} (h : Grammar.next p.state t.kind = some s) :
    (∃ p', p.Reaches s t p') ∨ ∃ f, p.Finishes s t f := by
  cases p with
  | between items s hs =>
    rw [state, hs] at h
    exact step_between items s hs h
  | within items w => exact .inl (step_within items w h)
  | body items header stmts s hs =>
    rw [state, hs] at h
    exact .inl (step_body items header stmts s hs h)
  | stmt items header stmts p => exact .inl (step_stmt items header stmts p h)

theorem state_ne_finished (p : Position) : p.state ≠ .finished := by
  cases p with
  | between items s hs =>
    rintro rfl
    exact absurd (congrFun hs .eof) (by decide)
  | within items w =>
    cases w with
    | beforeParam kw n opening l => cases l <;> simp [state, Within.part]
    | closed kw n opening ps closing => cases ps <;> simp [state, Within.part]
    | _ => simp [state, Within.part]
  | body items header stmts s hs =>
    rintro rfl
    exact absurd (congrFun hs .rbrace) (by decide)
  | stmt items header stmts p =>
    cases p with
    | before head l => cases l <;> cases head <;> simp [state, StmtAt.part, Head.state]
    | behind head l x => cases x <;> simp [state, StmtAt.part, Term.state]
    | within head l f opening a =>
      rcases a with (_ | _) | _ <;> simp [state, StmtAt.part, ArgsAt.state]
    | call f opening a => rcases a with (_ | _) | _ <;> simp [state, StmtAt.part, ArgsAt.state]
    | _ => simp [state, StmtAt.part]

variable (file : String)

/-- A kind that the table does not list stops the parser. -/
theorem run_none (p : Position) (t : Token) (ts : List Token)
    (h : Grammar.next p.state t.kind = none) :
    p.parser.run Grammar.table file (t :: ts) =
      .error (.unexpected { t.site with file } t.kind (Grammar.table.expected p.state)) := by
  simp [Parser.run, Parser.step, parser, Grammar.table, h]

theorem run_reaches {p p' : Position} {t : Token} {s : State}
    (hs : Grammar.next p.state t.kind = some s) (h : p.Reaches s t p') (ts : List Token) :
    p.parser.run Grammar.table file (t :: ts) = p'.parser.run Grammar.table file ts := by
  obtain ⟨rfl, -, hb⟩ := h
  have hn : Grammar.table.next p.state t.kind = some p'.state := hs
  have hf := p'.state_ne_finished
  simp [Parser.run, Parser.step, parser, hn, hb, hf]

/-- A kind that the table lists takes the parser to a position or ends the file. -/
theorem run_some (p : Position) (t : Token) (ts : List Token) {s : State}
    (h : Grammar.next p.state t.kind = some s) :
    (∃ p' : Position, p'.state = s ∧ p'.tokens = p.tokens ++ [t] ∧
      p.parser.run Grammar.table file (t :: ts) = p'.parser.run Grammar.table file ts) ∨
    (∃ f : File, s = .finished ∧ f.tokens = p.tokens ++ [t] ∧
      p.parser.run Grammar.table file (t :: ts) = .ok ⟨file, f.nodes⟩) := by
  have hn : Grammar.table.next p.state t.kind = some s := h
  rcases p.step h with ⟨p', hr⟩ | ⟨f, rfl, ht, hb⟩
  · exact .inl ⟨p', hr.1, hr.2.1, run_reaches file h hr ts⟩
  · refine .inr ⟨f, rfl, ht, ?_⟩
    have hset : (Builder.mk (.of []) [] [] f.nodes.reverse).settled = true := rfl
    simp [Parser.run, Parser.step, parser, hn, hb, hset]

/-- What the parser accepts is a file with the tokens read, up to the first end token. It does not
look at the tokens behind. -/
theorem run_ok (p : Position) (ts : List Token) {tree : Tree}
    (h : p.parser.run Grammar.table file ts = .ok tree) :
    ∃ (f : File) (us rest : List Token), ts = us ++ f.eof.1 :: rest ∧
      (∀ t ∈ us, t.kind ≠ .eof) ∧ f.items.flatMap Item.tokens = p.tokens ++ us ∧
      tree = ⟨file, f.nodes⟩ := by
  induction ts generalizing p with
  | nil => cases h
  | cons t ts ih =>
    cases hs : Grammar.next p.state t.kind with
    | none =>
      rw [run_none file p t ts hs] at h
      cases h
    | some s =>
      rcases run_some file p t ts hs with ⟨p', hp', ht, hr⟩ | ⟨f, _, ht, hr⟩
      · obtain ⟨f, us, rest, rfl, hus, hf, hn⟩ := ih p' (hr ▸ h)
        have hk : t.kind ≠ .eof := by
          intro hk
          rw [hk] at hs
          exact p'.state_ne_finished (hp'.trans (Grammar.next_eof hs))
        exact ⟨f, t :: us, rest, rfl, List.forall_mem_cons.mpr ⟨hk, hus⟩, by simp [hf, ht], hn⟩
      · rw [hr] at h
        obtain ⟨hitems, heof⟩ := List.append_inj' ht rfl
        obtain rfl : f.eof.1 = t := List.singleton_inj.mp heof
        exact ⟨f, [], ts, rfl, nofun, by simpa using hitems, (Except.ok.inj h).symm⟩

end Position

/-- The tree of an accepted list of tokens is made of the nodes of a file that ends with the first
end token. -/
theorem parse_items {ts : List Token} {tree : Tree} (h : parse Grammar.table ts = .ok tree) :
    ∃ (f : File) (rest : List Token), ts = f.tokens ++ rest ∧
      (∀ t ∈ f.items.flatMap Item.tokens, t.kind ≠ .eof) ∧ tree = ⟨Token.fileOf ts, f.nodes⟩ := by
  obtain ⟨f, us, rest, hts, hus, hf, htree⟩ := Position.run_ok (Token.fileOf ts) .start ts h
  obtain rfl : f.items.flatMap Item.tokens = us := hf
  exact ⟨f, rest, by simp [hts, File.tokens], hus, htree⟩

/-- The tree of an accepted list of tokens is made of the nodes of a file. -/
theorem parse_ok {ts : List Token} {tree : Tree} (h : parse Grammar.table ts = .ok tree) :
    ∃ (f : File) (rest : List Token), ts = f.tokens ++ rest ∧
      tree = ⟨Token.fileOf ts, f.nodes⟩ := by
  obtain ⟨f, rest, hts, _, htree⟩ := parse_items h
  exact ⟨f, rest, hts, htree⟩

end Phrase

end ThreeAddress
