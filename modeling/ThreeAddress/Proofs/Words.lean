import Mathlib.Computability.Language
import ThreeAddress.Proofs.Phrase
import ThreeAddress.Tree.Grammar

namespace ThreeAddress

open Computability

namespace Words

def one (k : TokenKind) : Language TokenKind := {[k]}

def optional (l : Language TokenKind) : Language TokenKind := 1 + l

def typename : Language TokenKind :=
  one .intWord + one .floatWord + one .boolWord + one .ident

def literal : Language TokenKind := one .number + one .trueWord + one .falseWord

def value : Language TokenKind := literal + one .ident

def args : Language TokenKind := value * (one .comma * value)∗

def binop : Language TokenKind :=
  one .plus + one .minus + one .star + one .slash + one .percent + one .lt + one .gt + one .le +
    one .ge + one .eqEq + one .notEq + one .andWord + one .orWord

def operand : Language TokenKind :=
  literal + one .ident + one .ident * one .lparen * optional args * one .rparen

def expr : Language TokenKind := operand * (binop * operand)∗

def stmt : Language TokenKind :=
  one .varWord * one .ident * one .colon * typename * optional (one .assign * expr) * one .semi +
    one .ident * one .assign * expr * one .semi +
    one .ident * one .lparen * optional args * one .rparen * one .semi +
    one .returnWord * expr * one .semi

def params : Language TokenKind :=
  one .ident * one .colon * typename * (one .comma * one .ident * one .colon * typename)∗

def item : Language TokenKind :=
  one .typeWord * one .ident * one .assign * typename * one .semi +
    one .varWord * one .ident * one .colon * typename * optional (one .assign * literal) *
      one .semi +
    one .funcWord * one .ident * one .lparen * optional params * one .rparen * one .colon *
      typename * one .lbrace * stmt∗ * one .rbrace

def program : Language TokenKind := item∗ * one .eof

section

variable {l m : Language TokenKind} {k a : TokenKind} {w : List TokenKind}

theorem cons_mem_one_mul : k :: w ∈ one a * l ↔ k = a ∧ w ∈ l := by
  constructor
  · rintro ⟨u, rfl, v, hv, h⟩
    obtain ⟨rfl, rfl⟩ := List.cons.inj h
    exact ⟨rfl, hv⟩
  · rintro ⟨rfl, hw⟩
    exact ⟨[k], rfl, w, hw, rfl⟩

theorem mem_optional_mul : w ∈ optional l * m ↔ w ∈ m ∨ w ∈ l * m := by
  rw [optional, add_mul, one_mul, Language.mem_add]

theorem mem_star_mul : w ∈ l∗ * m ↔ w ∈ m ∨ w ∈ l * (l∗ * m) := by
  conv_lhs => rw [← Language.one_add_self_mul_kstar_eq_kstar, add_mul, one_mul, mul_assoc]
  exact Language.mem_add _ _ _

theorem mem_add_mul {l' : Language TokenKind} : w ∈ (l + l') * m ↔ w ∈ l * m ∨ w ∈ l' * m := by
  rw [add_mul, Language.mem_add]

theorem cons_mem_typename_mul : k :: w ∈ typename * l ↔ k.isTypeName = true ∧ w ∈ l := by
  simp only [typename, mem_add_mul, cons_mem_one_mul]
  cases k <;> simp [TokenKind.isTypeName]

theorem cons_mem_literal_mul : k :: w ∈ literal * l ↔ k.isLiteral = true ∧ w ∈ l := by
  simp only [literal, mem_add_mul, cons_mem_one_mul]
  cases k <;> simp [TokenKind.isLiteral]

theorem cons_mem_value_mul : k :: w ∈ value * l ↔ k.isValue = true ∧ w ∈ l := by
  simp only [value, mem_add_mul, cons_mem_literal_mul, cons_mem_one_mul]
  cases k <;> simp [TokenKind.isValue, TokenKind.isLiteral]

theorem cons_mem_binop_mul :
    k :: w ∈ binop * l ↔ (Operator.ofKind? k).isSome = true ∧ w ∈ l := by
  simp only [binop, mem_add_mul, cons_mem_one_mul]
  cases k <;> simp [Operator.ofKind?]
end

/-- Between statements. -/
def body : Language TokenKind := stmt∗ * (one .rbrace * program)

/-- Behind an operand. -/
def tail : Language TokenKind := (binop * operand)∗ * (one .semi * body)

/-- Behind the parameters of a function. -/
def result : Language TokenKind := one .colon * (typename * (one .lbrace * body))

/-- Behind a parameter. -/
def moreParams : Language TokenKind :=
  (one .comma * one .ident * one .colon * typename)∗ * (one .rparen * result)

/-- Behind an argument, up to what follows the call. -/
def moreArgs (l : Language TokenKind) : Language TokenKind :=
  (one .comma * value)∗ * (one .rparen * l)

/-- The words that lead from a state to the end of a file. -/
def rest : State → Language TokenKind
  | .start | .typeEnd | .globalEnd | .bodyClose => program
  | .typeKw => one .ident * (one .assign * (typename * (one .semi * program)))
  | .typeName => one .assign * (typename * (one .semi * program))
  | .typeEq => typename * (one .semi * program)
  | .typeTarget => one .semi * program
  | .globalKw =>
    one .ident * (one .colon * (typename * (optional (one .assign * literal) *
      (one .semi * program))))
  | .globalName =>
    one .colon * (typename * (optional (one .assign * literal) * (one .semi * program)))
  | .globalColon => typename * (optional (one .assign * literal) * (one .semi * program))
  | .globalType => optional (one .assign * literal) * (one .semi * program)
  | .globalEq => literal * (one .semi * program)
  | .globalInit => one .semi * program
  | .funcKw => one .ident * (one .lparen * (optional params * (one .rparen * result)))
  | .funcName => one .lparen * (optional params * (one .rparen * result))
  | .paramOpen => optional params * (one .rparen * result)
  | .paramName => one .colon * (typename * moreParams)
  | .paramColon => typename * moreParams
  | .paramType => moreParams
  | .paramComma => one .ident * (one .colon * (typename * moreParams))
  | .paramClose | .noParams => result
  | .retColon => typename * (one .lbrace * body)
  | .retType => one .lbrace * body
  | .bodyOpen | .stmtEnd => body
  | .localKw =>
    one .ident * (one .colon * (typename * (optional (one .assign * expr) * (one .semi * body))))
  | .localName =>
    one .colon * (typename * (optional (one .assign * expr) * (one .semi * body)))
  | .localColon => typename * (optional (one .assign * expr) * (one .semi * body))
  | .localType => optional (one .assign * expr) * (one .semi * body)
  | .localEq | .assignEq | .returnKw | .binOp => operand * tail
  | .stmtName =>
    one .assign * (operand * tail) +
      one .lparen * (optional args * (one .rparen * (one .semi * body)))
  | .callStmt => optional args * (one .rparen * (one .semi * body))
  | .callStmtArg => moreArgs (one .semi * body)
  | .callStmtComma => value * moreArgs (one .semi * body)
  | .callStmtClose => one .semi * body
  | .operand | .callClose => tail
  | .operandName => optional (one .lparen * optional args * one .rparen) * tail
  | .callOpen => optional args * (one .rparen * tail)
  | .callArg => moreArgs tail
  | .callComma => value * moreArgs tail
  | .finished => 1

/-- A kind leads along an edge to a state from which the word goes on. -/
def Leads (edge : TokenKind → Option State) (k : TokenKind) (w : List TokenKind) : Prop :=
  ∃ s, edge k = some s ∧ w ∈ rest s

section
variable {k a : TokenKind} {w : List TokenKind} {s : State} {f g : TokenKind → Option State}

theorem leads_only : Leads (Grammar.only a s) k w ↔ k = a ∧ w ∈ rest s := by
  by_cases h : k = a <;> simp [Leads, Grammar.only, h]

theorem leads_typeName : Leads (Grammar.typeName s) k w ↔ k.isTypeName = true ∧ w ∈ rest s := by
  by_cases h : k.isTypeName = true <;> simp [Leads, Grammar.typeName, h]

theorem leads_literal : Leads (Grammar.literal s) k w ↔ k.isLiteral = true ∧ w ∈ rest s := by
  cases k <;> simp [Leads, Grammar.literal, TokenKind.isLiteral]

theorem leads_value : Leads (Grammar.value s) k w ↔ k.isValue = true ∧ w ∈ rest s := by
  cases k <;> simp [Leads, Grammar.value, TokenKind.isValue, TokenKind.isLiteral]

theorem leads_operand : Leads Grammar.operand k w ↔
    (k.isLiteral = true ∧ w ∈ rest .operand) ∨ (k = .ident ∧ w ∈ rest .operandName) := by
  cases k <;> simp [Leads, Grammar.operand, TokenKind.isLiteral]

theorem leads_operator : Leads Grammar.operator k w ↔
    ((Operator.ofKind? k).isSome = true ∧ w ∈ rest .binOp) ∨ (k = .semi ∧ w ∈ rest .stmtEnd) := by
  cases k <;> simp [Leads, Grammar.operator, Operator.ofKind?]

theorem leads_item : Leads Grammar.item k w ↔
    (k = .typeWord ∧ w ∈ rest .typeKw) ∨ (k = .varWord ∧ w ∈ rest .globalKw) ∨
      (k = .funcWord ∧ w ∈ rest .funcKw) ∨ (k = .eof ∧ w ∈ rest .finished) := by
  cases k <;> simp [Leads, Grammar.item]

theorem leads_statement : Leads Grammar.statement k w ↔
    (k = .varWord ∧ w ∈ rest .localKw) ∨ (k = .ident ∧ w ∈ rest .stmtName) ∨
      (k = .returnWord ∧ w ∈ rest .returnKw) ∨ (k = .rbrace ∧ w ∈ rest .bodyClose) := by
  cases k <;> simp [Leads, Grammar.statement]

/-- Edges of which no kind has two. -/
theorem leads_or (h : ∀ k, f k = none ∨ g k = none) :
    Leads (fun k => (f k).or (g k)) k w ↔ Leads f k w ∨ Leads g k w := by
  rcases h k with h | h
  · simp [Leads, h]
  · cases hf : f k <;> simp [Leads, h, hf]

end

section
variable {k : TokenKind} {w : List TokenKind} {l : Language TokenKind}

theorem cons_mem_moreArgs :
    k :: w ∈ moreArgs l ↔ (k = .comma ∧ w ∈ value * moreArgs l) ∨ (k = .rparen ∧ w ∈ l) := by
  rw [moreArgs, mem_star_mul, mul_assoc, cons_mem_one_mul, cons_mem_one_mul, or_comm]

theorem cons_mem_optional_args :
    k :: w ∈ optional args * (one .rparen * l) ↔
      (k.isValue = true ∧ w ∈ moreArgs l) ∨ (k = .rparen ∧ w ∈ l) := by
  rw [mem_optional_mul, args, mul_assoc, cons_mem_value_mul, cons_mem_one_mul, or_comm, moreArgs]

theorem cons_mem_optional_assign {m : Language TokenKind} :
    k :: w ∈ optional (one .assign * l) * (one .semi * m) ↔
      (k = .semi ∧ w ∈ m) ∨ (k = .assign ∧ w ∈ l * (one .semi * m)) := by
  rw [mem_optional_mul, mul_assoc, cons_mem_one_mul, cons_mem_one_mul]

theorem expr_mul : expr * (one .semi * body) = operand * tail := by rw [expr, mul_assoc, tail]

theorem cons_mem_optional_params : k :: w ∈ optional params * (one .rparen * result) ↔
    (k = .ident ∧ w ∈ rest .paramName) ∨ (k = .rparen ∧ w ∈ result) := by
  change _ ↔ (k = .ident ∧ w ∈ one .colon * (typename * moreParams)) ∨ _
  rw [mem_optional_mul, params, or_comm]
  simp only [mul_assoc, cons_mem_one_mul, moreParams]

theorem cons_mem_moreParams : k :: w ∈ moreParams ↔
    (k = .comma ∧ w ∈ rest .paramComma) ∨ (k = .rparen ∧ w ∈ result) := by
  rw [moreParams, mem_star_mul, or_comm, ← moreParams]
  simp only [mul_assoc, cons_mem_one_mul]
  exact Iff.rfl

theorem cons_mem_operand_mul : k :: w ∈ operand * tail ↔
    (k.isLiteral = true ∧ w ∈ tail) ∨ (k = .ident ∧ w ∈ rest .operandName) := by
  change _ ↔ _ ∨ (k = .ident ∧ w ∈ optional (one .lparen * optional args * one .rparen) * tail)
  simp only [operand, mem_add_mul, mem_optional_mul, cons_mem_literal_mul, mul_assoc,
    cons_mem_one_mul, and_or_left, or_assoc]

theorem cons_mem_operandName :
    k :: w ∈ rest .operandName ↔ (k = .lparen ∧ w ∈ rest .callOpen) ∨ k :: w ∈ tail := by
  change k :: w ∈ optional (one .lparen * optional args * one .rparen) * tail ↔ _
  rw [mem_optional_mul, or_comm]
  simp only [mul_assoc, cons_mem_one_mul]
  exact Iff.rfl

theorem cons_mem_tail : k :: w ∈ tail ↔
    ((Operator.ofKind? k).isSome = true ∧ w ∈ operand * tail) ∨ (k = .semi ∧ w ∈ body) := by
  rw [tail, mem_star_mul, mul_assoc, cons_mem_binop_mul, cons_mem_one_mul, or_comm]

theorem cons_mem_body : k :: w ∈ body ↔
    (k = .varWord ∧ w ∈ rest .localKw) ∨ (k = .ident ∧ w ∈ rest .stmtName) ∨
      (k = .returnWord ∧ w ∈ rest .returnKw) ∨ (k = .rbrace ∧ w ∈ program) := by
  change _ ↔ _ ∨ (k = .ident ∧ w ∈ one .assign * (operand * tail) +
    one .lparen * (optional args * (one .rparen * (one .semi * body)))) ∨ _
  rw [body, mem_star_mul, ← body, or_comm]
  simp only [stmt, mem_add_mul, mul_assoc, cons_mem_one_mul, Language.mem_add, expr_mul,
    and_or_left, or_assoc]
  exact Iff.rfl

theorem cons_mem_program : k :: w ∈ program ↔
    (k = .typeWord ∧ w ∈ rest .typeKw) ∨ (k = .varWord ∧ w ∈ rest .globalKw) ∨
      (k = .funcWord ∧ w ∈ rest .funcKw) ∨ (k = .eof ∧ w = []) := by
  have he : k :: w ∈ one .eof ↔ k = .eof ∧ w = [] := by
    rw [← mul_one (one .eof), cons_mem_one_mul, Language.mem_one]
  rw [program, mem_star_mul, ← program, he, or_comm]
  simp only [item, mem_add_mul, mul_assoc, cons_mem_one_mul, or_assoc]
  exact Iff.rfl

end

theorem only_disjoint {a b : TokenKind} {s s' : State} (h : a ≠ b) (k : TokenKind) :
    Grammar.only a s k = none ∨ Grammar.only b s' k = none := by
  by_cases ha : k = a
  · exact .inr (if_neg fun hb => h (ha.symm.trans hb))
  · exact .inl (if_neg ha)

theorem value_disjoint {s s' : State} (k : TokenKind) :
    Grammar.value s k = none ∨ Grammar.only .rparen s' k = none := by
  cases k <;> simp [Grammar.value, Grammar.only]

theorem leads_next (s : State) (k : TokenKind) (w : List TokenKind) :
    Leads (Grammar.next s) k w ↔ k :: w ∈ rest s := by
  cases s with
  | start | typeEnd | globalEnd | bodyClose => exact leads_item.trans cons_mem_program.symm
  | typeKw | typeName | typeTarget | globalKw | globalName | globalInit | funcKw | funcName
  | paramName | paramComma | paramClose | noParams | retType | localKw | localName
  | callStmtClose => exact leads_only.trans cons_mem_one_mul.symm
  | typeEq | globalColon | paramColon | retColon | localColon =>
    exact leads_typeName.trans cons_mem_typename_mul.symm
  | globalEq => exact leads_literal.trans cons_mem_literal_mul.symm
  | bodyOpen | stmtEnd => exact leads_statement.trans cons_mem_body.symm
  | localEq | assignEq | returnKw | binOp => exact leads_operand.trans cons_mem_operand_mul.symm
  | callStmtComma | callComma => exact leads_value.trans cons_mem_value_mul.symm
  | operand | callClose => exact leads_operator.trans cons_mem_tail.symm
  | globalType =>
    refine (leads_or (only_disjoint (by decide))).trans ?_
    rw [leads_only, leads_only]
    exact cons_mem_optional_assign.symm
  | localType =>
    refine (leads_or (only_disjoint (by decide))).trans ?_
    rw [leads_only, leads_only]
    have h := cons_mem_optional_assign (k := k) (w := w) (l := expr) (m := body)
    rw [expr_mul] at h
    exact h.symm
  | paramOpen =>
    refine (leads_or (only_disjoint (by decide))).trans ?_
    rw [leads_only, leads_only]
    exact cons_mem_optional_params.symm
  | paramType =>
    refine (leads_or (only_disjoint (by decide))).trans ?_
    rw [leads_only, leads_only]
    exact cons_mem_moreParams.symm
  | stmtName =>
    refine (leads_or (only_disjoint (by decide))).trans ?_
    rw [leads_only, leads_only]
    exact (or_congr cons_mem_one_mul cons_mem_one_mul).symm
  | callStmt | callOpen =>
    refine (leads_or value_disjoint).trans ?_
    rw [leads_value, leads_only]
    exact cons_mem_optional_args.symm
  | callStmtArg | callArg =>
    refine (leads_or (only_disjoint (by decide))).trans ?_
    rw [leads_only, leads_only]
    exact cons_mem_moreArgs.symm
  | operandName =>
    have hd (k : TokenKind) : Grammar.only .lparen .callOpen k = none ∨
        Grammar.operator k = none := by
      cases k <;> simp [Grammar.only, Grammar.operator]
    refine (leads_or hd).trans ?_
    rw [leads_only, leads_operator]
    exact (cons_mem_operandName.trans (or_congr_right cons_mem_tail)).symm
  | finished =>
    change (∃ s, none = some s ∧ w ∈ rest s) ↔ k :: w ∈ (1 : Language TokenKind)
    simp [Language.mem_one]

/-- The state that a word leads to. -/
def reach : State → List TokenKind → Option State
  | s, [] => some s
  | s, k :: w => (Grammar.next s k).bind (reach · w)

theorem reach_append (s : State) (u v : List TokenKind) :
    reach s (u ++ v) = (reach s u).bind (reach · v) := by
  induction u generalizing s with
  | nil => rfl
  | cons k u ih =>
    simp only [List.cons_append, reach, Option.bind_assoc]
    cases Grammar.next s k with
    | none => rfl
    | some s' => exact ih s'

theorem nil_mem_mul {l m : Language TokenKind} : [] ∈ l * m ↔ [] ∈ l ∧ [] ∈ m := by
  constructor
  · rintro ⟨u, hu, v, hv, h⟩
    obtain ⟨rfl, rfl⟩ := List.append_eq_nil_iff.mp h
    exact ⟨hu, hv⟩
  · rintro ⟨hl, hm⟩
    exact ⟨[], hl, [], hm, rfl⟩

theorem nil_mem_one {a : TokenKind} : [] ∈ one a ↔ False := by
  constructor
  · intro h
    cases h
  · exact False.elim

/-- Only the last state is one to stop in. -/
theorem nil_mem_rest (s : State) : [] ∈ rest s ↔ s = .finished := by
  cases s <;>
    simp only [rest, nil_mem_mul, nil_mem_one, program, body, tail, result, moreParams, moreArgs,
      Language.mem_add, Language.mem_one, and_false, or_false, reduceCtorEq]

theorem mem_rest (s : State) (w : List TokenKind) : w ∈ rest s ↔ reach s w = some .finished := by
  induction w generalizing s with
  | nil => simp [nil_mem_rest, reach]
  | cons k w ih =>
    rw [← leads_next, Leads, reach]
    cases Grammar.next s k with
    | none => simp
    | some s' => simp [ih]

/-- A shortest way from a state to the end of a file. -/
def ending : State → List TokenKind
  | .start | .typeEnd | .globalEnd | .bodyClose => [.eof]
  | .typeKw => [.ident, .assign, .intWord, .semi, .eof]
  | .typeName => [.assign, .intWord, .semi, .eof]
  | .typeEq => [.intWord, .semi, .eof]
  | .typeTarget | .globalType | .globalInit => [.semi, .eof]
  | .globalKw => [.ident, .colon, .intWord, .semi, .eof]
  | .globalName => [.colon, .intWord, .semi, .eof]
  | .globalColon => [.intWord, .semi, .eof]
  | .globalEq => [.number, .semi, .eof]
  | .funcKw => [.ident, .lparen, .rparen, .colon, .intWord, .lbrace, .rbrace, .eof]
  | .funcName => [.lparen, .rparen, .colon, .intWord, .lbrace, .rbrace, .eof]
  | .paramOpen | .paramType => [.rparen, .colon, .intWord, .lbrace, .rbrace, .eof]
  | .paramName => [.colon, .intWord, .rparen, .colon, .intWord, .lbrace, .rbrace, .eof]
  | .paramColon => [.intWord, .rparen, .colon, .intWord, .lbrace, .rbrace, .eof]
  | .paramComma =>
    [.ident, .colon, .intWord, .rparen, .colon, .intWord, .lbrace, .rbrace, .eof]
  | .paramClose | .noParams => [.colon, .intWord, .lbrace, .rbrace, .eof]
  | .retColon => [.intWord, .lbrace, .rbrace, .eof]
  | .retType => [.lbrace, .rbrace, .eof]
  | .bodyOpen | .stmtEnd => [.rbrace, .eof]
  | .localKw => [.ident, .colon, .intWord, .semi, .rbrace, .eof]
  | .localName => [.colon, .intWord, .semi, .rbrace, .eof]
  | .localColon => [.intWord, .semi, .rbrace, .eof]
  | .localType | .callStmtClose | .operand | .operandName | .callClose => [.semi, .rbrace, .eof]
  | .localEq | .assignEq | .returnKw | .binOp => [.number, .semi, .rbrace, .eof]
  | .stmtName => [.lparen, .rparen, .semi, .rbrace, .eof]
  | .callStmt | .callStmtArg | .callOpen | .callArg => [.rparen, .semi, .rbrace, .eof]
  | .callStmtComma | .callComma => [.number, .rparen, .semi, .rbrace, .eof]
  | .finished => []

theorem ending_mem_rest (s : State) : ending s ∈ rest s := by
  rw [mem_rest]
  cases s <;> rfl

/-- The beginning of a word of the grammar. -/
def Viable (u : List TokenKind) : Prop := ∃ v, u ++ v ∈ program

theorem mem_program (w : List TokenKind) : w ∈ program ↔ reach .start w = some .finished :=
  mem_rest .start w

theorem viable_iff (u : List TokenKind) : Viable u ↔ (reach .start u).isSome = true := by
  constructor
  · rintro ⟨v, hv⟩
    rw [mem_program, reach_append] at hv
    cases h : reach .start u with
    | none => simp [h] at hv
    | some s => rfl
  · intro h
    obtain ⟨s, hs⟩ := Option.isSome_iff_exists.mp h
    refine ⟨ending s, ?_⟩
    rw [mem_program, reach_append, hs]
    exact (mem_rest s _).mp (ending_mem_rest s)

theorem viable_snoc (u : List TokenKind) (k : TokenKind) {s : State}
    (h : reach .start u = some s) : Viable (u ++ [k]) ↔ (Grammar.next s k).isSome = true := by
  rw [viable_iff, reach_append, h]
  cases hn : Grammar.next s k <;> simp [reach, hn]

end Words

end ThreeAddress
