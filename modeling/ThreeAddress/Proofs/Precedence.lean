import Mathlib.Data.List.Induction
import ThreeAddress.Proofs.Phrase
import ThreeAddress.Proofs.Results

namespace ThreeAddress

/-- How tightly an operator of a kind binds. -/
def TokenKind.power? (k : TokenKind) : Option Nat := (Operator.ofKind? k).map Operator.power

/-- An operand or operator of an expression that is written out. -/
inductive Atom where
  | literal (t : Token)
  | name (t : Token)
  | call (callee : Token) (args : List Token)
  | operator (op : Operator) (t : Token)

namespace Node

/-- A node records an operand or operator. The first child of a call is not looked at. -/
inductive Shows : Node → Atom → Prop
  | literal (t : Token) : Shows (.leaf .operand t) (.literal t)
  | name (t : Token) : Shows (.leaf .operandName t) (.name t)
  | call (t : Token) (first : Node) (args : List Token) :
    Shows (.branch .callOpen t (first :: args.map (.leaf .callArg))) (.call t args)
  | operator {t : Token} {op : Operator} (h : Operator.ofKind? t.kind = some op) :
    Shows (.leaf .binOp t) (.operator op t)

/-- A literal, a name, or a call with its arguments behind a first child. -/
inductive IsOperand : Node → Prop
  | literal (t : Token) : IsOperand (.leaf .operand t)
  | name (t : Token) : IsOperand (.leaf .operandName t)
  | call {t : Token} {first : Node} {args : List Node}
    (h : ∀ a ∈ args, ∃ u, a = .leaf .callArg u) : IsOperand (.branch .callOpen t (first :: args))

/-- An operator whose token has a power. -/
inductive IsOperator : Node → Prop
  | mk {t : Token} {p : Nat} (h : t.kind.power? = some p) : IsOperator (.leaf .binOp t)

/-- Operands at the even positions, operators between them. -/
structure Alternating (nodes : List Node) : Prop where
  odd : nodes.length % 2 = 1
  operands : ∀ i n, nodes[2 * i]? = some n → n.IsOperand
  operators : ∀ i n, nodes[2 * i + 1]? = some n → n.IsOperator

variable {n m : Node} {ns : List Node}

theorem not_alternating_nil : ¬Alternating [] := by
  intro h
  exact absurd h.odd (by decide)

theorem not_alternating_pair : ¬Alternating [n, m] := by
  intro h
  exact absurd h.odd (by simp)

theorem alternating_singleton : Alternating [n] ↔ n.IsOperand := by
  constructor
  · intro h
    exact h.operands 0 n rfl
  · intro h
    refine ⟨rfl, fun i x hx => ?_, fun i x hx => ?_⟩
    · cases i with
      | zero => exact Option.some.inj hx ▸ h
      | succ i => cases hx
    · cases hx

theorem alternating_cons_cons :
    Alternating (n :: m :: ns) ↔ n.IsOperand ∧ m.IsOperator ∧ Alternating ns := by
  have hlength : (n :: m :: ns).length % 2 = ns.length % 2 := by
    simp only [List.length_cons]
    omega
  constructor
  · intro h
    exact ⟨h.operands 0 n rfl, h.operators 0 m rfl, hlength ▸ h.odd,
      fun i => h.operands (i + 1), fun i => h.operators (i + 1)⟩
  · rintro ⟨hn, hm, h⟩
    refine ⟨hlength ▸ h.odd, fun i x hx => ?_, fun i x hx => ?_⟩
    · cases i with
      | zero => exact Option.some.inj hx ▸ hn
      | succ i => exact h.operands i x hx
    · cases i with
      | zero => exact Option.some.inj hx ▸ hm
      | succ i => exact h.operators i x hx

end Node

namespace Expr

/-- The expression written out from left to right. -/
def atoms : Expr → List Atom
  | .literal t => [.literal t]
  | .name t => [.name t]
  | .call callee args => [.call callee args]
  | .binary op t lhs rhs => lhs.atoms ++ .operator op t :: rhs.atoms

/-- No operator inside a left operand binds less tightly than the operator outside, and every one
inside a right operand binds more tightly. -/
def Grouped : Expr → Prop
  | .binary op _ lhs rhs => lhs.Grouped ∧ rhs.Grouped ∧
    (∀ p, lhs.power? = some p → op.power ≤ p) ∧ ∀ p, rhs.power? = some p → op.power < p
  | _ => True

variable {e e' : Expr} {op : Operator} {t : Token}

theorem grouped_of_power?_eq_none (h : e.power? = none) : e.Grouped := by
  cases e with
  | binary op t lhs rhs => cases h
  | _ => exact trivial

theorem atoms_append (op : Operator) (t : Token) (operand e : Expr) :
    (append op t operand e).atoms = e.atoms ++ .operator op t :: operand.atoms := by
  induction e with
  | literal u => rfl
  | name u => rfl
  | call f args => rfl
  | binary op' t' lhs rhs _ ih =>
    rw [append]
    split
    · simp [atoms, ih]
    · simp [atoms]

theorem power?_append {operand : Expr} {p : Nat} (h : (append op t operand e).power? = some p) :
    p = op.power ∨ e.power? = some p := by
  cases e with
  | binary op' t' lhs rhs =>
    rw [append] at h
    split at h
    · exact .inr h
    · exact .inl (Option.some.inj h).symm
  | _ => exact .inl (Option.some.inj h).symm

theorem Grouped.append {operand : Expr} (ho : operand.power? = none) (he : e.Grouped) :
    (append op t operand e).Grouped := by
  have hright : ∀ p, operand.power? = some p → op.power < p := by
    intro p hp
    cases ho.symm.trans hp
  have hroot {l : Expr} (hl : l.Grouped) (hpow : ∀ p, l.power? = some p → op.power ≤ p) :
      (Expr.binary op t l operand).Grouped := ⟨hl, grouped_of_power?_eq_none ho, hpow, hright⟩
  induction e with
  | literal u => exact hroot he nofun
  | name u => exact hroot he nofun
  | call f args => exact hroot he nofun
  | binary op' t' lhs rhs _ ih =>
    rw [Expr.append]
    split
    · next hlt =>
      -- The operator goes inside, below one that binds less tightly.
      obtain ⟨hl, hr, hpl, hpr⟩ := he
      refine ⟨hl, ih hr, hpl, fun p hp => ?_⟩
      rcases power?_append hp with rfl | hp
      · exact hlt
      · exact hpr p hp
    · next hle =>
      refine hroot he fun p hp => ?_
      obtain rfl := Option.some.inj hp
      exact Nat.le_of_not_lt hle

/-- A bound on the outermost operator is one on all operators. -/
theorem Grouped.le_power {b : Nat} (he : e.Grouped) (hb : ∀ p, e.power? = some p → b ≤ p)
    (hm : .operator op t ∈ e.atoms) : b ≤ op.power := by
  induction e generalizing b with
  | literal u => simp [atoms] at hm
  | name u => simp [atoms] at hm
  | call f args => simp [atoms] at hm
  | binary op' t' lhs rhs ihl ihr =>
    obtain ⟨hl, hr, hpl, hpr⟩ := he
    have hroot : b ≤ op'.power := hb _ rfl
    simp only [atoms, List.mem_append, List.mem_cons, Atom.operator.injEq] at hm
    rcases hm with hm | ⟨rfl, -⟩ | hm
    · exact Nat.le_trans hroot (ihl hl hpl hm)
    · exact hroot
    · exact Nat.le_trans hroot (Nat.le_of_succ_le (ihr hr hpr hm))

section Binary

variable {op' : Operator} {t' : Token} {lhs rhs lhs' rhs' : Expr}

/-- The outermost operator of one expression cannot stand to the left of that of another. -/
theorem Grouped.not_left (he : (binary op t lhs rhs).Grouped)
    (he' : (binary op' t' lhs' rhs').Grouped) (hin : .operator op' t' ∈ rhs.atoms)
    (hin' : .operator op t ∈ lhs'.atoms) : False := by
  obtain ⟨-, hr, -, hpr⟩ := he
  obtain ⟨hl', -, hpl', -⟩ := he'
  have hlt : op.power < op'.power := hr.le_power hpr hin
  have hle : op'.power ≤ op.power := hl'.le_power hpl' hin'
  omega

/-- The outermost operators of expressions that are written alike are the same one. -/
theorem Grouped.split (he : (binary op t lhs rhs).Grouped)
    (he' : (binary op' t' lhs' rhs').Grouped)
    (h : (binary op' t' lhs' rhs').atoms = (binary op t lhs rhs).atoms) :
    lhs'.atoms = lhs.atoms ∧ Atom.operator op' t' = .operator op t ∧ rhs'.atoms = rhs.atoms := by
  rcases List.append_eq_append_iff.mp h with ⟨more, hleft, hright⟩ | ⟨more, hleft, hright⟩
  · cases more with
    | nil =>
      obtain ⟨hop, hright⟩ := List.cons.inj hright
      exact ⟨by simp [hleft], hop, hright⟩
    | cons a more =>
      obtain ⟨rfl, hrest⟩ := List.cons.inj hright
      have hin : .operator op t ∈ rhs'.atoms := by simp [hrest]
      have hin' : .operator op' t' ∈ lhs.atoms := by simp [hleft]
      exact (he'.not_left he hin hin').elim
  · cases more with
    | nil =>
      obtain ⟨hop, hright⟩ := List.cons.inj hright
      exact ⟨by simp [hleft], hop.symm, hright.symm⟩
    | cons a more =>
      obtain ⟨rfl, hrest⟩ := List.cons.inj hright
      have hin : .operator op' t' ∈ rhs.atoms := by simp [hrest]
      have hin' : .operator op t ∈ lhs'.atoms := by simp [hleft]
      exact (he.not_left he' hin hin').elim

end Binary

theorem Grouped.eq_of_atoms (he : e.Grouped) (he' : e'.Grouped) (h : e'.atoms = e.atoms) :
    e' = e := by
  induction e generalizing e' with
  | literal u =>
    cases e' with
    | literal u' => simpa [atoms] using h
    | _ => simp [atoms, List.append_eq_singleton_iff] at h
  | name u =>
    cases e' with
    | name u' => simpa [atoms] using h
    | _ => simp [atoms, List.append_eq_singleton_iff] at h
  | call f args =>
    cases e' with
    | call f' args' => simpa [atoms] using h
    | _ => simp [atoms, List.append_eq_singleton_iff] at h
  | binary op t lhs rhs ihl ihr =>
    cases e' with
    | binary op' t' lhs' rhs' =>
      obtain ⟨hleft, hop, hright⟩ := he.split he' h
      cases hop
      rw [ihl he.1 he'.1 hleft, ihr he.2.1 he'.2.1 hright]
    | _ => simp [atoms, List.singleton_eq_append_iff] at h

variable {owner n : Node} {ns : List Node}

theorem mapM_leafToken_eq_ok {k : State} {args : List Node} {ts : List Token}
    (h : args.mapM (fun a => owner.leafToken k (some a)) = .ok ts) : args = ts.map (.leaf k) := by
  have hall := forall₂_of_mapM h
  clear h
  induction hall with
  | nil => rfl
  | @cons a t args ts ha _ ih =>
    obtain rfl : a = .leaf k t := by
      cases a with
      | branch k' u cs => cases ha
      | leaf k' u =>
        simp only [Node.leafToken] at ha
        split at ha
        · next hk =>
          cases ha
          rw [hk]
        · cases ha
    rw [List.map_cons, ih]

/-- An operand is read from the node that records it. -/
theorem ofOperand_eq_ok :
    ofOperand owner (some n) = .ok e ↔ e.power? = none ∧ List.Forall₂ Node.Shows [n] e.atoms := by
  constructor
  · intro h
    unfold ofOperand at h
    split at h
    · cases h
    · next t hn =>
      cases h
      cases hn
      exact ⟨rfl, .cons (.literal t) .nil⟩
    · next t hn =>
      cases h
      cases hn
      exact ⟨rfl, .cons (.name t) .nil⟩
    · cases h
    · next t first args hn =>
      cases hn
      obtain ⟨ts, hts, rfl⟩ := map_eq_ok.mp h
      obtain rfl := mapM_leafToken_eq_ok hts
      exact ⟨rfl, .cons (.call t first ts) .nil⟩
    · cases h
  · rintro ⟨hp, hshows⟩
    cases e with
    | literal t =>
      obtain - | ⟨hn, -⟩ := hshows
      cases hn
      rfl
    | name t =>
      obtain - | ⟨hn, -⟩ := hshows
      cases hn
      rfl
    | call f args =>
      obtain - | ⟨hn, -⟩ := hshows
      cases hn
      rw [ofOperand, Phrase.mapM_leafToken]
      rfl
    | binary op t lhs rhs => cases hp

theorem exists_ofOperand_iff : (∃ e, ofOperand owner (some n) = .ok e) ↔ n.IsOperand := by
  simp only [ofOperand_eq_ok]
  constructor
  · rintro ⟨e, hp, hshows⟩
    cases e with
    | binary op t lhs rhs => cases hp
    | _ =>
      obtain - | ⟨hn, -⟩ := hshows
      cases hn
      first | exact .literal _ | exact .name _ | exact .call (by simp)
  · intro h
    cases h with
    | literal t => exact ⟨.literal t, rfl, .cons (.literal t) .nil⟩
    | name t => exact ⟨.name t, rfl, .cons (.name t) .nil⟩
    | @call t first args h =>
      obtain ⟨ts, rfl⟩ : ∃ ts : List Token, args = ts.map (.leaf .callArg) := by
        induction args with
        | nil => exact ⟨[], rfl⟩
        | cons a args ih =>
          obtain ⟨⟨u, rfl⟩, hs⟩ := List.forall_mem_cons.mp h
          obtain ⟨ts, rfl⟩ := ih hs
          exact ⟨u :: ts, rfl⟩
      exact ⟨.call t ts, rfl, .cons (.call t first ts) .nil⟩

/-- Two nodes of a tail are an operator and its operand. -/
theorem ofTail_cons_cons {m : Node} {tail : List (Operator × Token × Expr)} :
    ofTail owner (m :: n :: ns) = .ok tail ↔ ∃ t op operand more, m = .leaf .binOp t ∧
      Operator.ofKind? t.kind = some op ∧ ofOperand owner (some n) = .ok operand ∧
      ofTail owner ns = .ok more ∧ tail = (op, t, operand) :: more := by
  constructor
  · intro h
    unfold ofTail at h
    split at h
    · next hm => cases hm
    · next t rest hm =>
      cases hm
      split at h
      · cases h
      · next op hop =>
        obtain ⟨operand, ho, h⟩ := bind_eq_ok.mp h
        obtain ⟨more, hs, h⟩ := bind_eq_ok.mp h
        cases h
        exact ⟨t, op, operand, more, rfl, hop, ho, hs, rfl⟩
    · cases h
  · rintro ⟨t, op, operand, more, rfl, hop, ho, hs, rfl⟩
    simp only [ofTail, hop, ho, hs]
    rfl

theorem ofTail_singleton {m : Node} {tail : List (Operator × Token × Expr)} :
    ofTail owner [m] ≠ .ok tail := by
  intro h
  unfold ofTail at h
  split at h
  · next hm => cases hm
  · next t rest hm =>
    cases hm
    split at h
    · cases h
    · cases h
  · cases h

/-- The operators and operands of a tail come behind those of the expression that they are added
to, and the result is grouped. -/
theorem foldl_append {tail : List (Operator × Token × Expr)} (h : ofTail owner ns = .ok tail)
    (he : e.Grouped) :
    (tail.foldl (fun e (op, t, operand) => append op t operand e) e).Grouped ∧
      ∃ more, List.Forall₂ Node.Shows ns more ∧
        (tail.foldl (fun e (op, t, operand) => append op t operand e) e).atoms =
          e.atoms ++ more := by
  induction ns using List.twoStepInduction generalizing e tail with
  | nil =>
    cases h
    exact ⟨he, [], .nil, (List.append_nil _).symm⟩
  | singleton m => exact absurd h ofTail_singleton
  | cons_cons m n ns ih _ =>
    obtain ⟨t, op, operand, tail, rfl, hop, ho, hs, rfl⟩ := ofTail_cons_cons.mp h
    obtain ⟨hpower, hshows⟩ := ofOperand_eq_ok.mp ho
    obtain ⟨hgrouped, more, hmore, hatoms⟩ := ih hs (he.append hpower)
    refine ⟨hgrouped, .operator op t :: (operand.atoms ++ more), ?_, ?_⟩
    · exact .cons (.operator hop) (List.rel_append hshows hmore)
    · rw [List.foldl_cons, hatoms, atoms_append, List.append_assoc, List.cons_append]

theorem exists_ofTail_iff {first : Node} (hf : first.IsOperand) :
    (∃ tail, ofTail owner ns = .ok tail) ↔ Node.Alternating (first :: ns) := by
  induction ns using List.twoStepInduction generalizing first with
  | nil => exact ⟨fun _ => Node.alternating_singleton.mpr hf, fun _ => ⟨[], rfl⟩⟩
  | singleton m =>
    constructor
    · rintro ⟨tail, h⟩
      exact absurd h ofTail_singleton
    · intro h
      exact absurd h Node.not_alternating_pair
  | cons_cons m n ns ih _ =>
    rw [Node.alternating_cons_cons]
    constructor
    · rintro ⟨tail, h⟩
      obtain ⟨t, op, operand, more, rfl, hop, ho, hs, rfl⟩ := ofTail_cons_cons.mp h
      have hn : n.IsOperand := exists_ofOperand_iff.mp ⟨operand, ho⟩
      have hpower : t.kind.power? = some op.power := by rw [TokenKind.power?, hop]; rfl
      exact ⟨hf, .mk hpower, (ih hn).mp ⟨more, hs⟩⟩
    · rintro ⟨-, ⟨hpower⟩, hrest⟩
      have hn : n.IsOperand := hrest.operands 0 n rfl
      obtain ⟨op, hop, -⟩ := Option.map_eq_some_iff.mp hpower
      obtain ⟨operand, ho⟩ := exists_ofOperand_iff.mpr hn
      obtain ⟨more, hs⟩ := (ih hn).mpr hrest
      exact ⟨_, ofTail_cons_cons.mpr ⟨_, op, operand, more, rfl, hop, ho, hs, rfl⟩⟩

theorem ofNodes_eq_ok : ofNodes owner (n :: ns) = .ok e ↔
    ∃ first tail, ofOperand owner (some n) = .ok first ∧ ofTail owner ns = .ok tail ∧
      e = tail.foldl (fun e (op, t, operand) => append op t operand e) first := by
  rw [ofNodes_eq_extend]
  constructor
  · intro h
    obtain ⟨first, hf, h⟩ := bind_eq_ok.mp h
    obtain ⟨tail, ht, rfl⟩ := map_eq_ok.mp h
    exact ⟨first, tail, hf, ht, rfl⟩
  · rintro ⟨first, tail, hf, ht, rfl⟩
    simp only [extend, List.head?_cons, List.tail_cons, hf, ht]
    rfl

theorem exists_ofNodes_iff {nodes : List Node} :
    (∃ e, ofNodes owner nodes = .ok e) ↔ Node.Alternating nodes := by
  cases nodes with
  | nil =>
    constructor
    · rintro ⟨e, h⟩
      simp [ofNodes_nil] at h
    · intro h
      exact absurd h Node.not_alternating_nil
  | cons n ns =>
    constructor
    · rintro ⟨e, h⟩
      obtain ⟨first, tail, hf, ht, -⟩ := ofNodes_eq_ok.mp h
      exact (exists_ofTail_iff (exists_ofOperand_iff.mp ⟨first, hf⟩)).mp ⟨tail, ht⟩
    · intro h
      have hn : n.IsOperand := h.operands 0 n rfl
      obtain ⟨first, hf⟩ := exists_ofOperand_iff.mpr hn
      obtain ⟨tail, ht⟩ := (exists_ofTail_iff hn).mpr h
      exact ⟨_, ofNodes_eq_ok.mpr ⟨first, tail, hf, ht, rfl⟩⟩

theorem shows_ofNodes {nodes : List Node} (h : ofNodes owner nodes = .ok e) :
    List.Forall₂ Node.Shows nodes e.atoms ∧ e.Grouped := by
  cases nodes with
  | nil => simp [ofNodes_nil] at h
  | cons n ns =>
    obtain ⟨first, tail, hf, ht, rfl⟩ := ofNodes_eq_ok.mp h
    obtain ⟨hpower, hshows⟩ := ofOperand_eq_ok.mp hf
    obtain ⟨hgrouped, more, hmore, hatoms⟩ := foldl_append ht (grouped_of_power?_eq_none hpower)
    exact ⟨hatoms ▸ List.rel_append hshows hmore, hgrouped⟩

end Expr

/-- A run of nodes has an expression exactly when operands and operators take turns. Written out the
expression is the run, its operators are grouped by power and to the left, and no other expression
has both. -/
theorem ofNodes_unique_grouping (owner : Node) (nodes : List Node) :
    ((∃ e, Expr.ofNodes owner nodes = .ok e) ↔ Node.Alternating nodes) ∧
      ∀ e, Expr.ofNodes owner nodes = .ok e →
        List.Forall₂ Node.Shows nodes e.atoms ∧ e.Grouped ∧
          ∀ e' : Expr, e'.atoms = e.atoms → e'.Grouped → e' = e := by
  refine ⟨Expr.exists_ofNodes_iff, fun e he => ?_⟩
  obtain ⟨hshows, hgrouped⟩ := Expr.shows_ofNodes he
  exact ⟨hshows, hgrouped, fun e' hatoms hgrouped' => hgrouped.eq_of_atoms hgrouped' hatoms⟩

/-- `a - b * 2 - f(c)`: a product between two operators of one power, and a call behind them. -/
theorem ofNodes_unique_grouping_mixed_powers :
    let token (k : TokenKind) (lexeme : String) : Token := ⟨k, lexeme, ⟨"a", 1, 1⟩⟩
    let minus := token .minus "-"
    let nodes : List Node :=
      [.leaf .operandName (token .ident "a"), .leaf .binOp minus,
        .leaf .operandName (token .ident "b"), .leaf .binOp (token .star "*"),
        .leaf .operand (token .number "2"), .leaf .binOp minus,
        .branch .callOpen (token .ident "f")
          [.leaf .operandName (token .ident "f"), .leaf .callArg (token .ident "c")]]
    let e : Expr :=
      .binary .sub minus
        (.binary .sub minus (.name (token .ident "a"))
          (.binary .mul (token .star "*") (.name (token .ident "b"))
            (.literal (token .number "2"))))
        (.call (token .ident "f") [token .ident "c"])
    Node.Alternating nodes ∧
      Expr.ofNodes (.leaf .returnKw (token .returnWord "return")) nodes = .ok e ∧
      List.Forall₂ Node.Shows nodes e.atoms ∧ e.Grouped ∧
      ∀ e' : Expr, e'.atoms = e.atoms → e'.Grouped → e' = e := by
  intro token minus nodes e
  have he : Expr.ofNodes (.leaf .returnKw (token .returnWord "return")) nodes = .ok e :=
    Expr.ofNodes_eq_extend _ nodes
  obtain ⟨hiff, hunique⟩ :=
    ofNodes_unique_grouping (.leaf .returnKw (token .returnWord "return")) nodes
  exact ⟨hiff.mp ⟨e, he⟩, he, hunique e he⟩

end ThreeAddress
