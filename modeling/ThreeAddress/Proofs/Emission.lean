import ThreeAddress.Code.Emit
import ThreeAddress.Proofs.Reading
import ThreeAddress.Proofs.Signature

namespace ThreeAddress

namespace Code

variable (symbols : SymbolTable)

/-- The code of statements, temporaries counted on. -/
def statements (func : Token) : List Stmt → Nat → Except CodeError (List Instruction)
  | [], _ => .ok []
  | s :: ss, temps => do
    let (code, temps) ← statement symbols func s temps
    let more ← statements func ss temps
    return code ++ more

def routine (r : Routine) : Except CodeError (List Instruction) := do
  let body ← statements symbols r.name r.body 0
  let name := Operand.ofToken r.name
  return .func name r.params.length :: r.params.map (fun q => .paramIn (.ofToken q.name)) ++
    body ++ [.endFunc name]

/-- The code of a declaration. -/
def decl : Decl → Except CodeError (List Instruction)
  | .alias _ _ => .ok []
  | .global name type init => global symbols name type init
  | .routine r => routine symbols r

open Phrase

theorem construct_stmt (func : Token) (s : Phrase.Stmt) (temps : Nat) :
    construct symbols func s.node temps = statement symbols func s.stmt temps := by
  have hk : ∀ k, k = .localKw ∨ k = .assignEq ∨ k = .callStmt ∨ k = .returnKw → s.node.kind = k →
      construct symbols func s.node temps = statement symbols func s.stmt temps := by
    rintro k hk rfl
    rw [construct, Phrase.Stmt.ofNode_node]
    rcases hk with hk | hk | hk | hk <;> (rw [hk]; rfl)
  refine hk _ ?_ rfl
  cases s with
  | «local» keyword name colon ty semi => exact .inl rfl
  | call f opening args closing semi => exact .inr (.inr (.inl rfl))
  | valued head value semi => cases head <;> simp [Phrase.Stmt.node, Node.kind, Head.kind]

theorem next_stmt (s : Phrase.Stmt) {p : Phase} (hp : p = .functionEntry ∨ p = .functionBody) :
    Phase.table.next p s.node.kind = some .functionBody := by
  rcases hp with rfl | rfl
  all_goals
    cases s with
    | valued head value semi => cases head <;> rfl
    | _ => rfl

/-- The statements of a body and its closing brace. -/
theorem constructs_body (func : Token) (ss : List Phrase.Stmt) (close : Token) (temps : Nat)
    {p : Phase} (hp : p = .functionEntry ∨ p = .functionBody) :
    constructs Phase.table symbols func p temps
        (ss.map Phrase.Stmt.node ++ [Node.leaf .bodyClose close]) =
      (statements symbols func (ss.map Phrase.Stmt.stmt) temps).map (·, .functionExit) := by
  induction ss generalizing p temps with
  | nil => rcases hp with rfl | rfl <;> rfl
  | cons s ss ih =>
    simp only [List.map_cons, List.cons_append, constructs, advance, next_stmt s hp,
      construct_stmt, statements]
    cases statement symbols func s.stmt temps with
    | error e => rfl
    | ok x =>
      obtain ⟨code, temps⟩ := x
      have hs := ih temps (.inr rfl)
      simp only [bind, Except.bind, hs]
      cases statements symbols func (ss.map Phrase.Stmt.stmt) temps <;> rfl

theorem constructs_params (func : Token) (ps : List Phrase.Param) (rest : List Node) (temps : Nat) :
    constructs Phase.table symbols func .functionEntry temps (ps.map Phrase.Param.node ++ rest) =
      (constructs Phase.table symbols func .functionEntry temps rest).map fun x =>
        (ps.map (fun q => Instruction.paramIn (.ofToken q.param.name)) ++ x.1, x.2) := by
  induction ps with
  | nil =>
    rw [List.map_nil, List.nil_append]
    cases constructs Phase.table symbols func .functionEntry temps rest <;> rfl
  | cons q ps ih =>
    have hn : Phase.table.next .functionEntry q.node.kind = some .functionEntry := rfl
    have hc : construct symbols func q.node temps =
        .ok ([.paramIn (.ofToken q.param.name)], temps) := rfl
    simp only [List.map_cons, List.cons_append, constructs, advance, hn, hc, bind, Except.bind, ih]
    cases constructs Phase.table symbols func .functionEntry temps rest <;> rfl

/-- The constructs of a function are its parameters, its statements and the closing brace. -/
theorem filter_children (header : Header) (body : List Phrase.Stmt) (close : TokenOf .rbrace) :
    (Phrase.Item.func header body close).node.children.filter (·.isConstruct) =
      (Params.list header.params).map Phrase.Param.node ++
        (body.map Phrase.Stmt.node ++ [Node.leaf .bodyClose close]) := by
  have hps : ((Params.list header.params).map Phrase.Param.node).filter (·.isConstruct) =
      (Params.list header.params).map Phrase.Param.node := by
    refine List.filter_eq_self.mpr fun n hn => ?_
    obtain ⟨q, _, rfl⟩ := List.mem_map.mp hn
    rfl
  have hss : (body.map Phrase.Stmt.node).filter (·.isConstruct) = body.map Phrase.Stmt.node := by
    refine List.filter_eq_self.mpr fun n hn => ?_
    obtain ⟨s, _, rfl⟩ := List.mem_map.mp hn
    cases s <;> rfl
  simp only [Phrase.Item.node, Node.children, Header.nodes, List.cons_append, List.append_assoc,
    List.filter_cons, List.filter_append, hps, hss]
  simp [Node.isConstruct]

theorem function_func (header : Header) (body : List Phrase.Stmt) (close : TokenOf .rbrace) :
    function Phase.table symbols .functionEntry (Phrase.Item.func header body close).node
        (Phrase.Item.function header body close) =
      (decl symbols (Phrase.Item.func header body close).decl).map (·, .functionExit) := by
  rw [function, filter_children, constructs_params, constructs_body _ _ _ _ _ (.inl rfl)]
  simp only [decl, routine, Phrase.Item.decl, Phrase.Item.function]
  cases statements symbols header.name (body.map Phrase.Stmt.stmt) 0 with
  | error e => rfl
  | ok code =>
    simp [Except.map, bind, Except.bind, pure, Except.pure, List.map_map, Function.comp_def]

/-- The phases between declarations. -/
def Between (p : Phase) : Prop := p = .initial ∨ p = .declarations ∨ p = .functionExit

theorem next_item {p : Phase} (hp : Between p) (k : State) :
    Phase.table.next p k = Phase.item k := by
  rcases hp with rfl | rfl | rfl <;> rfl

/-- A declaration gives its code and leads to a phase between declarations. -/
theorem item_node {p : Phase} (hp : Between p) (i : Phrase.Item) :
    ∃ p' q, Between q ∧ advance Phase.table p i.node = .ok p' ∧
      item Phase.table symbols p' i.node = (decl symbols i.decl).map (·, q) := by
  cases i with
  | type keyword name eq target semi =>
    refine ⟨.declarations, .declarations, .inr (.inl rfl), ?_, rfl⟩
    rw [advance, next_item hp]
    rfl
  | «global» keyword name colon ty init semi =>
    refine ⟨.declarations, .declarations, .inr (.inl rfl), ?_, ?_⟩
    · rw [advance, next_item hp]
      rfl
    · rw [item, Phrase.Item.ofNode_node]
      simp only [Phrase.Item.item, decl, Phrase.Item.decl, Except.mapError, bind, Except.bind]
      cases global symbols name ty (init.map (·.2.1)) <;> rfl
  | func header body close =>
    refine ⟨.functionEntry, .functionExit, .inr (.inr rfl), ?_, ?_⟩
    · rw [advance, next_item hp]
      rfl
    · rw [item, Phrase.Item.ofNode_node]
      exact function_func symbols header body close

theorem items_nodes (file : String) (is : List Phrase.Item) (eof : Token) {p : Phase}
    (hp : Between p) :
    items Phase.table symbols file p (is.map Phrase.Item.node ++ [Node.leaf .finished eof]) =
      ((is.map Phrase.Item.decl).mapM (decl symbols)).map List.flatten := by
  induction is generalizing p with
  | nil =>
    rw [List.map_nil, List.nil_append, items, advance, next_item hp]
    rfl
  | cons i is ih =>
    obtain ⟨p', q, hq, hadvance, hitem⟩ := item_node symbols hp i
    have hne : q ≠ .finished := by rcases hq with rfl | rfl | rfl <;> nofun
    rw [List.map_cons, List.cons_append, items, hadvance, List.map_cons, List.mapM_cons]
    simp only [bind, Except.bind, hitem]
    cases decl symbols i.decl with
    | error e => rfl
    | ok code =>
      have hrest := ih hq
      simp only [Except.map, hne, if_false, hrest]
      cases (is.map Phrase.Item.decl).mapM (decl symbols) <;> rfl

end Code

/-- The code of a parsed tree is that of its declarations in order. -/
theorem Tree.emit_eq (symbols : SymbolTable) {t : Tree} {f : Phrase.File} (h : t.items = f.nodes) :
    t.emit Phase.table symbols = (f.program.mapM (Code.decl symbols)).map List.flatten := by
  rw [emit, h]
  exact Code.items_nodes symbols t.file f.items f.eof (.inl rfl)

/-- A table has the types of globals and locals. -/
structure SymbolTable.Serves (t : SymbolTable) (p : Program) : Prop where
  globals : ∀ {name type init}, .global name type init ∈ p →
    ∃ s ty, t.get? name.lexeme = some s ∧ s.ty = some ty ∧ p.Denotes type ty
  locals : ∀ {r}, .routine r ∈ p → ∀ v ∈ r.body.flatMap Stmt.declared,
    ∃ s ty, t.local? r.name.lexeme v.1.lexeme = some s ∧ s.ty = some ty ∧ p.Denotes v.2 ty

/-- A value that code can be made for. -/
structure Token.Usable (u : Token) : Prop where
  isValue : u.IsValue
  inRange : u.InRange

namespace Code

theorem kind_of_ofLiteral? {u : Token} {ty : Ty} (h : Ty.ofLiteral? u = some ty) :
    u.kind = .trueWord ∨ u.kind = .falseWord ∨ u.kind = .number := by
  unfold Ty.ofLiteral? at h
  split at h
  · next hk => exact .inl hk
  · next hk => exact .inr (.inl hk)
  · next hk => exact .inr (.inr hk)
  · cases h

theorem value_ok {u : Token} (h : u.Usable) : ∃ a, value u = .ok a := by
  unfold value
  cases h.isValue with
  | name hk hx => exact ⟨_, if_pos hk⟩
  | literal hty hn =>
    have hlit : ∃ o, Operand.ofLiteral? u = some o := by
      unfold Operand.ofLiteral?
      rcases kind_of_ofLiteral? hty with hk | hk | hk <;> rw [hk]
      · exact ⟨_, rfl⟩
      · exact ⟨_, rfl⟩
      · cases hf : Numeral.isFloat u.lexeme.toList with
        | true => exact ⟨_, if_pos rfl⟩
        | false =>
          have hv := (Numeral.value?_isSome_iff (hn hk) hf).mpr (h.inRange hk hf)
          obtain ⟨v, hv⟩ := Option.isSome_iff_exists.mp hv
          exact ⟨.int v, by simp [hv]⟩
    have hk : u.kind ≠ .ident := by
      intro hk
      simp [Ty.ofLiteral?, hk] at hty
    obtain ⟨o, ho⟩ := hlit
    exact ⟨o, by rw [if_neg hk, ho]⟩

theorem call_ok (dest : Option Operand) (callee : Token) (args : List Token)
    (h : ∀ a ∈ args, a.Usable) : ∃ code, call dest callee args = .ok code := by
  obtain ⟨as, has⟩ : ∃ as, args.mapM (fun a => (value a).map Instruction.param) = .ok as := by
    refine mapM_ok fun a ha => ?_
    obtain ⟨o, ho⟩ := value_ok (h a ha)
    exact ⟨.param o, by rw [ho]; rfl⟩
  refine ⟨as ++ [Instruction.call dest (.ofToken callee) args.length], ?_⟩
  rw [call, has]
  rfl

theorem spill_ok {e : Expr} (temps : Nat) (hv : ∀ u ∈ e.values, u.Usable)
    (h : ∀ dest temps, ∃ x, into e dest temps = .ok x) :
    ∃ x, spill e temps (into e) = .ok x := by
  cases e with
  | literal u =>
    obtain ⟨a, ha⟩ := value_ok (hv u (List.mem_singleton_self u))
    exact ⟨(a, [], temps), by rw [spill, ha]; rfl⟩
  | name u =>
    obtain ⟨a, ha⟩ := value_ok (hv u (List.mem_singleton_self u))
    exact ⟨(a, [], temps), by rw [spill, ha]; rfl⟩
  | call callee args =>
    obtain ⟨x, hx⟩ := h (.temp temps) (temps + 1)
    exact ⟨(.temp temps, x.1, x.2), by simp only [spill, hx]; rfl⟩
  | binary op t lhs rhs =>
    obtain ⟨x, hx⟩ := h (.temp temps) (temps + 1)
    exact ⟨(.temp temps, x.1, x.2), by simp only [spill, hx]; rfl⟩

theorem into_ok {e : Expr} (hv : ∀ u ∈ e.values, u.Usable) (dest : Operand) (temps : Nat) :
    ∃ x, into e dest temps = .ok x := by
  induction e generalizing dest temps with
  | literal u =>
    obtain ⟨a, ha⟩ := value_ok (hv u (List.mem_singleton_self u))
    exact ⟨([.copy dest a], temps), by rw [into, ha]; rfl⟩
  | name u =>
    obtain ⟨a, ha⟩ := value_ok (hv u (List.mem_singleton_self u))
    exact ⟨([.copy dest a], temps), by rw [into, ha]; rfl⟩
  | call callee args =>
    obtain ⟨code, hc⟩ := call_ok (some dest) callee args hv
    exact ⟨(code, temps), by rw [into, hc]; rfl⟩
  | binary op t lhs rhs hl hr =>
    obtain ⟨hvl, hvr⟩ := List.forall_mem_append.mp hv
    obtain ⟨⟨a, left, n⟩, hleft⟩ := spill_ok temps hvl (hl hvl)
    obtain ⟨⟨b, right, m⟩, hright⟩ := spill_ok n hvr (hr hvr)
    refine ⟨(left ++ right ++ [Instruction.binary op dest a b], m), ?_⟩
    simp only [into, hleft, hright, bind, Except.bind]
    rfl

theorem operand_eq_spill (e : Expr) (temps : Nat) : operand e temps = spill e temps (into e) := by
  have hstore : store e = into e := by
    funext dest temps
    exact store_eq_into e dest temps
  rw [operand, hstore]

theorem statement_ok {symbols : SymbolTable} {func : Token} {s : Stmt}
    (hv : ∀ u ∈ s.values, u.Usable)
    (hl : ∀ v ∈ s.declared, ∃ x ty, symbols.local? func.lexeme v.1.lexeme = some x ∧ x.ty = some ty)
    (temps : Nat) : ∃ x, statement symbols func s temps = .ok x := by
  cases s with
  | «local» name type init =>
    cases init with
    | none =>
      obtain ⟨x, ty, hx, hty⟩ := hl (name, type) (List.mem_singleton_self _)
      refine ⟨([.copy (.ofToken name) (.zero ty)], temps), ?_⟩
      simp only [statement, zero, hx, Option.bind_some, hty]
      rfl
    | some e =>
      rw [statement, store_eq_into]
      exact into_ok hv _ _
  | assign target e =>
    rw [statement, store_eq_into]
    exact into_ok hv _ _
  | call callee args =>
    obtain ⟨code, hc⟩ := call_ok none callee args hv
    exact ⟨(code, temps), by rw [statement, hc]; rfl⟩
  | ret keyword e =>
    obtain ⟨⟨a, code, n⟩, hx⟩ := spill_ok temps hv (into_ok hv)
    refine ⟨(code ++ [Instruction.ret a], n), ?_⟩
    rw [statement, operand_eq_spill, hx]
    rfl

theorem statements_ok {symbols : SymbolTable} {func : Token} {ss : List Stmt}
    (hv : ∀ s ∈ ss, ∀ u ∈ s.values, u.Usable)
    (hl : ∀ v ∈ ss.flatMap Stmt.declared,
      ∃ x ty, symbols.local? func.lexeme v.1.lexeme = some x ∧ x.ty = some ty)
    (temps : Nat) : ∃ code, statements symbols func ss temps = .ok code := by
  induction ss generalizing temps with
  | nil => exact ⟨[], rfl⟩
  | cons s ss ih =>
    obtain ⟨hv, hvs⟩ := List.forall_mem_cons.mp hv
    rw [List.flatMap_cons, List.forall_mem_append] at hl
    obtain ⟨⟨code, n⟩, hs⟩ := statement_ok hv hl.1 temps
    obtain ⟨more, hss⟩ := ih hvs hl.2 n
    refine ⟨code ++ more, ?_⟩
    simp only [statements, hs, bind, Except.bind, hss]
    rfl

/-- Declarations of a program with usable values have code. -/
theorem decl_ok {symbols : SymbolTable} {p : Program} (h : symbols.Serves p) {d : Decl}
    (hd : d ∈ p) (hv : ∀ u ∈ d.values, u.Usable) : ∃ code, decl symbols d = .ok code := by
  cases d with
  | «alias» name target => exact ⟨[], rfl⟩
  | «global» name type init =>
    obtain ⟨s, ty, hs, hty, _⟩ := h.globals hd
    have hz : zero (symbols.get? name.lexeme) type = .ok (.zero ty) := by
      simp only [zero, hs, Option.bind_some, hty]
    cases init with
    | none =>
      refine ⟨[.global (.ofToken name), .copy (.ofToken name) (.zero ty)], ?_⟩
      rw [decl, global, hz]
      rfl
    | some u =>
      obtain ⟨a, ha⟩ := value_ok (hv u (List.mem_singleton_self u))
      refine ⟨[.global (.ofToken name), .copy (.ofToken name) a], ?_⟩
      simp only [decl, global, hz, ha]
      rfl
  | routine r =>
    have hvs : ∀ s ∈ r.body, ∀ u ∈ s.values, u.Usable := fun s hs u hu =>
      hv u (List.mem_flatMap.mpr ⟨s, hs, hu⟩)
    have hl : ∀ v ∈ r.body.flatMap Stmt.declared,
        ∃ x ty, symbols.local? r.name.lexeme v.1.lexeme = some x ∧ x.ty = some ty := by
      intro v hv
      obtain ⟨s, ty, hs, hty, _⟩ := h.locals hd v hv
      exact ⟨s, ty, hs, hty⟩
    obtain ⟨code, hc⟩ := statements_ok hvs hl 0
    simp only [decl, routine, hc]
    exact ⟨_, rfl⟩

end Code

theorem Program.WellFormed.usable {p : Program} (h : p.WellFormed) (hw : p.Written) {d : Decl}
    (hd : d ∈ p) : ∀ u ∈ d.values, u.Usable := fun u hu =>
  ⟨hw.values d hd u hu, h.literals d hd u hu⟩

end ThreeAddress
