import ThreeAddress.Proofs.Lexeme
import ThreeAddress.Proofs.Position
import ThreeAddress.Proofs.Program

namespace ThreeAddress

namespace Expr

@[simp] theorem values_append (op : Operator) (t : Token) (operand e : Expr) :
    (append op t operand e).values = e.values ++ operand.values := by
  induction e with
  | literal u => rfl
  | name u => rfl
  | call f args => rfl
  | binary op' t' lhs rhs _ ih =>
    rw [append]
    split
    · simp [values, ih]
    · simp [values]

@[simp] theorem callees_append (op : Operator) (t : Token) (operand e : Expr) :
    (append op t operand e).callees = e.callees ++ operand.callees := by
  induction e with
  | literal u => rfl
  | name u => rfl
  | call f args => rfl
  | binary op' t' lhs rhs _ ih =>
    rw [append]
    split
    · simp [callees, ih]
    · simp [callees]

end Expr

namespace Phrase

theorem Chain.subset_flatten {α σ β : Type} (f : α → List β) (g : σ → List β) {c : Chain α σ}
    {a : α} (h : a ∈ c.members) : f a ⊆ c.flatten f g := by
  intro b hb
  rcases List.mem_cons.mp h with rfl | h
  · exact List.mem_append_left _ hb
  · obtain ⟨p, hp, rfl⟩ := List.mem_map.mp h
    refine List.mem_append_right _ (List.mem_flatMap.mpr ⟨p, hp, ?_⟩)
    exact List.mem_append_right _ hb

theorem Args.mem_values {as : Option Args} {t : Token} (h : t ∈ Args.values as) :
    t.kind.isValue = true ∧ t ∈ Args.tokens as := by
  cases as with
  | none => cases h
  | some c =>
    obtain ⟨v, hv, rfl⟩ := List.mem_map.mp h
    have hs := Chain.subset_flatten (fun v => [v.1]) (fun s => [s.1]) hv
    exact ⟨v.2, hs (List.mem_singleton_self _)⟩

theorem Term.mem_values {x : Term} {t : Token} (h : t ∈ x.expr.values) :
    t.kind.isValue = true ∧ t ∈ x.tokens := by
  cases x with
  | literal u =>
    obtain rfl := List.mem_singleton.mp h
    exact ⟨by simp [TokenKind.isValue, u.2], by simp [tokens]⟩
  | name u =>
    obtain rfl := List.mem_singleton.mp h
    exact ⟨by simp [TokenKind.isValue, u.2], by simp [tokens]⟩
  | call f opening args closing =>
    obtain ⟨hk, ht⟩ := Args.mem_values h
    exact ⟨hk, by simp [tokens, ht]⟩

theorem Term.mem_callees {x : Term} {t : Token} (h : t ∈ x.expr.callees) :
    t.kind = .ident ∧ t ∈ x.tokens := by
  cases x with
  | literal u => cases h
  | name u => cases h
  | call f opening args closing =>
    obtain rfl := List.mem_singleton.mp h
    exact ⟨f.2, by simp [tokens]⟩

namespace Flat

theorem values_foldl (tail : List (OperatorToken × Term)) (e : Expr) :
    (tail.foldl (fun l p => Expr.append p.1.op p.1.token p.2.expr l) e).values =
      e.values ++ tail.flatMap (·.2.expr.values) := by
  induction tail generalizing e with
  | nil => simp
  | cons p tail ih => simp [ih]

theorem callees_foldl (tail : List (OperatorToken × Term)) (e : Expr) :
    (tail.foldl (fun l p => Expr.append p.1.op p.1.token p.2.expr l) e).callees =
      e.callees ++ tail.flatMap (·.2.expr.callees) := by
  induction tail generalizing e with
  | nil => simp
  | cons p tail ih => simp [ih]

theorem mem_values {e : Flat} {t : Token} (h : t ∈ e.expr.values) :
    t.kind.isValue = true ∧ t ∈ e.tokens := by
  have hm : t ∈ e.members.flatMap (·.expr.values) := by
    rw [expr, values_foldl] at h
    simpa [Chain.members, List.flatMap_map] using h
  obtain ⟨x, hx, ht⟩ := List.mem_flatMap.mp hm
  obtain ⟨hk, ht⟩ := Term.mem_values ht
  exact ⟨hk, Chain.subset_flatten _ _ hx ht⟩

theorem mem_callees {e : Flat} {t : Token} (h : t ∈ e.expr.callees) :
    t.kind = .ident ∧ t ∈ e.tokens := by
  have hm : t ∈ e.members.flatMap (·.expr.callees) := by
    rw [expr, callees_foldl] at h
    simpa [Chain.members, List.flatMap_map] using h
  obtain ⟨x, hx, ht⟩ := List.mem_flatMap.mp hm
  obtain ⟨hk, ht⟩ := Term.mem_callees ht
  exact ⟨hk, Chain.subset_flatten _ _ hx ht⟩

end Flat

namespace Stmt

theorem mem_values {s : Stmt} {t : Token} (h : t ∈ s.stmt.values) :
    t.kind.isValue = true ∧ t ∈ s.tokens := by
  cases s with
  | «local» keyword name colon ty semi => cases h
  | call f opening args closing semi =>
    obtain ⟨hk, ht⟩ := Args.mem_values h
    exact ⟨hk, by simp [tokens, ht]⟩
  | valued head value semi =>
    have hv : t ∈ value.expr.values := by cases head <;> exact h
    obtain ⟨hk, ht⟩ := Flat.mem_values hv
    exact ⟨hk, by simp [tokens, ht]⟩

theorem mem_names {s : Stmt} {t : Token} (h : t ∈ s.stmt.names) :
    t.kind = .ident ∧ t ∈ s.tokens := by
  cases s with
  | «local» keyword name colon ty semi =>
    obtain rfl := List.mem_singleton.mp h
    exact ⟨name.2, by simp [tokens]⟩
  | call f opening args closing semi =>
    obtain rfl := List.mem_singleton.mp h
    exact ⟨f.2, by simp [tokens]⟩
  | valued head value semi =>
    have hv : t ∈ value.expr.callees → t.kind = .ident ∧ t ∈ (valued head value semi).tokens := by
      intro hc
      obtain ⟨hk, ht⟩ := Flat.mem_callees hc
      exact ⟨hk, by simp [tokens, ht]⟩
    cases head with
    | ret keyword => exact hv h
    | assign name eq =>
      rcases List.mem_cons.mp h with rfl | h
      · exact ⟨name.2, by simp [tokens, Head.tokens]⟩
      · exact hv h
    | «local» keyword name colon ty eq =>
      rcases List.mem_cons.mp h with rfl | h
      · exact ⟨name.2, by simp [tokens, Head.tokens]⟩
      · exact hv h

theorem mapM_ofNode (ss : List Stmt) :
    (ss.map node).mapM ThreeAddress.Stmt.ofNode = .ok (ss.map stmt) := by
  induction ss with
  | nil => rfl
  | cons s ss ih =>
    rw [List.map_cons, List.mapM_cons, ih, ofNode_node]
    rfl

end Stmt

theorem Params.subset_tokens {ps : Option Params} {q : Param} (h : q ∈ Params.list ps) :
    q.tokens ⊆ Params.tokens ps := by
  cases ps with
  | none => cases h
  | some c => exact Chain.subset_flatten Param.tokens (fun s => [s.1]) h

theorem Params.mem_list {ps : Option Params} {q : Param} (h : q ∈ Params.list ps) :
    q.name.1 ∈ Params.tokens ps := subset_tokens h List.mem_cons_self

namespace Item

def decl : Item → Decl
  | .type _ name _ target _ => .alias name target
  | .global _ name _ ty init _ => .global name ty (init.map (·.2.1))
  | .func header body _ =>
    .routine ⟨header.name, (Params.list header.params).map Param.param, header.ret,
      body.map Stmt.stmt⟩

theorem declOfNode_node (i : Item) : Decl.ofNode i.node = .ok i.decl := by
  rw [Decl.ofNode, ofNode_node]
  cases i with
  | type keyword name eq target semi => rfl
  | «global» keyword name colon ty init semi => rfl
  | func header body close =>
    have h := Stmt.mapM_ofNode body
    simp only [item, function, Function.routine, bind, Except.bind, h]
    rfl

theorem kind_node_ne (i : Item) : i.node.kind ≠ .finished := by
  cases i <;> nofun

theorem mem_values {i : Item} {t : Token} (h : t ∈ i.decl.values) :
    t.kind.isValue = true ∧ t ∈ i.tokens := by
  cases i with
  | type keyword name eq target semi => cases h
  | «global» keyword name colon ty init semi =>
    cases init with
    | none => cases h
    | some u =>
      obtain rfl := List.mem_singleton.mp h
      exact ⟨by simp [TokenKind.isValue, u.2.2], by simp [tokens]⟩
  | func header body close =>
    simp only [decl, Decl.values, List.flatMap_map] at h
    obtain ⟨s, hs, ht⟩ := List.mem_flatMap.mp h
    obtain ⟨hk, ht⟩ := Stmt.mem_values ht
    have hb : t ∈ body.flatMap Stmt.tokens := List.mem_flatMap.mpr ⟨s, hs, ht⟩
    exact ⟨hk, by simp only [tokens, List.mem_append, hb, true_or, or_true]⟩

theorem mem_names {i : Item} {t : Token} (h : t ∈ i.decl.names) :
    t.kind = .ident ∧ t ∈ i.tokens := by
  cases i with
  | type keyword name eq target semi =>
    obtain rfl := List.mem_singleton.mp h
    exact ⟨name.2, by simp [tokens]⟩
  | «global» keyword name colon ty init semi =>
    obtain rfl := List.mem_singleton.mp h
    exact ⟨name.2, by simp [tokens]⟩
  | func header body close =>
    simp only [decl, Decl.names, List.flatMap_map, List.map_map, List.cons_append,
      List.mem_cons, List.mem_append, List.mem_map] at h
    obtain rfl | ⟨q, hq, rfl⟩ | h := h
    · exact ⟨header.name.2, by simp [tokens, Header.tokens]⟩
    · exact ⟨q.name.2, by simp [tokens, Header.tokens, Params.mem_list hq, Param.param]⟩
    · obtain ⟨s, hs, ht⟩ := List.mem_flatMap.mp h
      obtain ⟨hk, ht⟩ := Stmt.mem_names ht
      have hb : t ∈ body.flatMap Stmt.tokens := List.mem_flatMap.mpr ⟨s, hs, ht⟩
      exact ⟨hk, by simp only [tokens, List.mem_append, hb, true_or, or_true]⟩

theorem init_isLiteral {i : Item} {name ty init : Token} (h : i.decl = .global name ty (some init)) :
    init.kind.isLiteral = true := by
  cases i with
  | type keyword name eq target semi => cases h
  | func header body close => cases h
  | «global» keyword name colon ty u semi =>
    cases u with
    | none => cases h
    | some u =>
      cases h
      exact u.2.2

end Item

namespace File

def program (f : File) : Program := f.items.map Item.decl

theorem program_of_items {t : Tree} {f : File} (h : t.items = f.nodes) :
    t.program = .ok f.program := by
  have hd : t.declarations = f.items.map Item.node := by
    have hi : ∀ n ∈ f.items.map Item.node, (n.kind != .finished) = true := by
      simp [Item.kind_node_ne]
    rw [Tree.declarations, h, nodes, List.filter_append, List.filter_eq_self.mpr hi]
    simp [Node.kind]
  rw [Tree.program, hd, program]
  induction f.items with
  | nil => rfl
  | cons i is ih =>
    rw [List.map_cons, List.mapM_cons, ih, Item.declOfNode_node]
    rfl

end File

theorem exists_ofLiteral {t : Token} (h : t.kind.isLiteral = true) :
    ∃ ty, Ty.ofLiteral? t = some ty := by
  unfold Ty.ofLiteral?
  revert h
  cases t.kind <;> simp [TokenKind.isLiteral]

end Phrase

namespace Token.Lexical

theorem noColon {t : Token} (h : t.Lexical) (hk : t.kind = .ident) : ':' ∉ t.lexeme.toList := by
  intro hc
  have hcolon : ':'.isAlphanum = false := by decide
  exact Bool.noConfusion (hcolon.symm.trans (h.ident hk _ hc))

theorem isValue {t : Token} (h : t.Lexical) (hk : t.kind.isValue = true) : t.IsValue := by
  simp only [TokenKind.isValue, Bool.or_eq_true, beq_iff_eq] at hk
  rcases hk with hk | hk
  · exact .name hk (h.noColon hk)
  · obtain ⟨ty, hty⟩ := Phrase.exists_ofLiteral hk
    exact .literal hty h.number

end Token.Lexical

/-- A file that lexes and parses is a phrase, written as a source writes it. -/
theorem Tree.exists_phrase {budget : Budget} {file : String} {s : Source} {ts : List Token}
    {tree : Tree} (hl : tokenize budget file s = .ok ts) (hp : parse Grammar.table ts = .ok tree) :
    ∃ f : Phrase.File, tree.items = f.nodes ∧ f.program.Written := by
  obtain ⟨f, rest, rfl, rfl⟩ := Phrase.parse_ok hp
  have hlex := lexical_tokenize hl
  have hmem : ∀ i ∈ f.items, ∀ t ∈ i.tokens, t.Lexical := by
    intro i hi t ht
    have : t ∈ f.items.flatMap Phrase.Item.tokens := List.mem_flatMap.mpr ⟨i, hi, ht⟩
    exact hlex t (by simp only [Phrase.File.tokens, List.mem_append, this, true_or])
  refine ⟨f, rfl, ?_, ?_, ?_⟩
  · intro d hd t ht
    obtain ⟨i, hi, rfl⟩ := List.mem_map.mp hd
    obtain ⟨hk, ht⟩ := Phrase.Item.mem_names ht
    exact (hmem i hi t ht).noColon hk
  · intro d hd t ht
    obtain ⟨i, hi, rfl⟩ := List.mem_map.mp hd
    obtain ⟨hk, ht⟩ := Phrase.Item.mem_values ht
    exact (hmem i hi t ht).isValue hk
  · intro name type init hd
    obtain ⟨i, hi, h⟩ := List.mem_map.mp hd
    exact Phrase.exists_ofLiteral (Phrase.Item.init_isLiteral h)

end ThreeAddress
