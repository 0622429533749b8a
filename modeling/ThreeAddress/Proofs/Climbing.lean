import ThreeAddress.Proofs.Results
import ThreeAddress.Tree.View

namespace ThreeAddress

namespace Expr

/-- The power of the outermost operator. -/
def power? : Expr → Option Nat
  | .binary op _ _ _ => some op.power
  | _ => none

/-- Operators with the operands behind them. -/
def ofTail (owner : Node) : List Node → Except Malformed (List (Operator × Token × Expr))
  | [] => .ok []
  | .leaf .binOp t :: rest =>
    match Operator.ofKind? t.kind with
    | none => .error (.node owner)
    | some op =>
      match rest with
      | [] => .error (.node owner)
      | n :: rest => do
        let operand ← ofOperand owner (some n)
        let tail ← ofTail owner rest
        return (op, t, operand) :: tail
  | _ :: _ => .error (.node owner)

/-- Adds an operator and its operand on the right: below every operator there that binds less
tightly, around all else. -/
def append (op : Operator) (t : Token) (operand : Expr) : Expr → Expr
  | .binary op' t' lhs rhs =>
    if op'.power < op.power then .binary op' t' lhs (append op t operand rhs)
    else .binary op t (.binary op' t' lhs rhs) operand
  | e => .binary op t e operand

/-- Adds all operators and operands that the nodes record. -/
def extend (owner : Node) (nodes : List Node) (e : Expr) : Except Malformed Expr :=
  (ofTail owner nodes).map fun tail =>
    tail.foldl (fun e (op, t, operand) => append op t operand e) e

/-- An operator that is added to the whole comes to stand inside, if its power is `min` or more. -/
def Surrounds (min : Nat) (around : Expr → Expr) : Prop :=
  ∀ op t operand e, min ≤ op.power →
    append op t operand (around e) = around (append op t operand e)

/-- An operator at the position does not bind more tightly than the outermost one. -/
def Precedes (nodes : List Node) (pos : Nat) (e : Expr) : Prop :=
  ∀ t op p, nodes[pos]? = some (.leaf .binOp t) → Operator.ofKind? t.kind = some op →
    e.power? = some p → op.power ≤ p

/-- Where reading may stop: an operator that follows has a power below `min`. -/
structure Ends (nodes : List Node) (min stop : Nat) : Prop where
  le : stop ≤ nodes.length
  lt : ∀ t, nodes[stop]? = some (.leaf .binOp t) →
    ∃ op, Operator.ofKind? t.kind = some op ∧ op.power < min

variable {owner : Node} {nodes : List Node} {op : Operator} {t : Token} {e lhs operand : Expr}
  {min pos : Nat}

theorem append_eq_binary (h : ∀ p, e.power? = some p → op.power ≤ p) :
    append op t operand e = .binary op t e operand := by
  cases e with
  | binary op' t' l r =>
    have hle : op.power ≤ op'.power := h _ rfl
    rw [append, if_neg (by omega)]
  | _ => rfl

theorem append_binary_of_lt {op' : Operator} {t' : Token} (h : op'.power < op.power) :
    append op t operand (.binary op' t' lhs e) = .binary op' t' lhs (append op t operand e) := by
  rw [append, if_pos h]

theorem Surrounds.refl (min : Nat) : Surrounds min fun e => e := by
  intro op t operand e h
  rfl

/-- A left operand and its operator surround whatever binds more tightly. -/
theorem Surrounds.binary {around : Expr → Expr} (h : Surrounds min around)
    (hmin : min ≤ op.power) :
    Surrounds (op.power + 1) fun e => around (.binary op t lhs e) := by
  intro op' t' operand e hlt
  have hmin' : min ≤ op'.power := by omega
  rw [h op' t' operand _ hmin', append_binary_of_lt hlt]

theorem precedes_of_power?_eq_none (h : e.power? = none) : Precedes nodes pos e := by
  intro t op p _ _ hp
  simp [h] at hp

/-- Behind a right operand that was read to its end, the operator in front of it is outermost. -/
theorem Ends.precedes {stop : Nat} {rhs : Expr} (h : Ends nodes (op.power + 1) stop) :
    Precedes nodes stop (.binary op t lhs rhs) := by
  intro t' op' p ht' hop' hp
  obtain ⟨op'', hop'', hlt⟩ := h.lt t' ht'
  obtain rfl : op' = op'' := Option.some.inj (hop'.symm.trans hop'')
  obtain rfl : op.power = p := Option.some.inj hp
  omega

theorem ofOperand_power? {n : Option Node} (h : ofOperand owner n = .ok e) : e.power? = none := by
  unfold ofOperand at h
  split at h
  · cases h
  · cases h
    rfl
  · cases h
    rfl
  · cases h
  · obtain ⟨args, -, rfl⟩ := map_eq_ok.mp h
    rfl
  · cases h

theorem extend_nil : extend owner [] e = .ok e := rfl

theorem extend_cons_operator {rest : List Node} (hop : Operator.ofKind? t.kind = some op) :
    extend owner (.leaf .binOp t :: rest) e = (ofOperand owner rest.head?).bind fun operand =>
      extend owner rest.tail (append op t operand e) := by
  cases rest with
  | nil =>
    simp only [extend, ofTail, hop]
    rfl
  | cons n rest =>
    simp only [extend, ofTail, hop, List.head?_cons, List.tail_cons]
    cases ofOperand owner (some n) with
    | error m => rfl
    | ok operand =>
      simp only [bind, Except.bind]
      cases ofTail owner rest with
      | error m => rfl
      | ok tail => rfl

theorem drop_of_getElem? {n : Node} (h : nodes[pos]? = some n) :
    nodes.drop pos = n :: nodes.drop (pos + 1) := by
  rw [List.drop_eq_getElem?_toList_append, h]
  rfl

theorem extend_of_operator (ht : nodes[pos]? = some (.leaf .binOp t))
    (hop : Operator.ofKind? t.kind = some op) :
    extend owner (nodes.drop pos) e = (ofOperand owner nodes[pos + 1]?).bind fun operand =>
      extend owner (nodes.drop (pos + 2)) (append op t operand e) := by
  rw [drop_of_getElem? ht, extend_cons_operator hop, List.head?_drop, List.tail_drop]

theorem extend_of_unknown (ht : nodes[pos]? = some (.leaf .binOp t))
    (hop : Operator.ofKind? t.kind = none) :
    extend owner (nodes.drop pos) e = .error (.node owner) := by
  rw [drop_of_getElem? ht]
  simp only [extend, ofTail, hop]
  rfl

theorem extend_of_other {n : Node} (hn : nodes[pos]? = some n)
    (h : ∀ t, nodes[pos]? ≠ some (.leaf .binOp t)) :
    extend owner (nodes.drop pos) e = .error (.node owner) := by
  rw [drop_of_getElem? hn, extend]
  unfold ofTail
  split
  · next heq => cases heq
  · next t rest heq =>
    obtain ⟨rfl, -⟩ := List.cons.inj heq
    exact absurd hn (h t)
  · rfl

theorem climb_eq : climb owner nodes min pos =
    (ofOperand owner nodes[pos]?).bind fun lhs => climbOn owner nodes min lhs (pos + 1) := by
  rw [climb]
  rfl

theorem climbOn_of_unknown (ht : nodes[pos]? = some (.leaf .binOp t))
    (hop : Operator.ofKind? t.kind = none) :
    climbOn owner nodes min lhs pos = .error (.node owner) := by
  rw [climbOn]
  split
  · next u hu =>
    cases ht.symm.trans hu
    simp only [hop]
  · next hother => exact absurd ht (hother t)

theorem climbOn_of_lt (ht : nodes[pos]? = some (.leaf .binOp t))
    (hop : Operator.ofKind? t.kind = some op) (hlt : op.power < min) :
    climbOn owner nodes min lhs pos = .ok ⟨lhs, pos, Nat.le_refl pos⟩ := by
  rw [climbOn]
  split
  · next u hu =>
    cases ht.symm.trans hu
    simp only [hop, if_pos hlt]
  · rfl

theorem climbOn_of_le (ht : nodes[pos]? = some (.leaf .binOp t))
    (hop : Operator.ofKind? t.kind = some op) (hle : ¬op.power < min) :
    climbOn owner nodes min lhs pos =
      (climb owner nodes (op.power + 1) (pos + 1)).bind fun rhs =>
        (climbOn owner nodes min (.binary op t lhs rhs.expr) rhs.stop).map fun r =>
          ⟨r.expr, r.stop, by have := rhs.le; have := r.le; omega⟩ := by
  rw [climbOn]
  split
  · next u hu =>
    cases ht.symm.trans hu
    simp only [hop, if_neg hle]
    rfl
  · next hother => exact absurd ht (hother t)

theorem climbOn_of_other (h : ∀ t, nodes[pos]? ≠ some (.leaf .binOp t)) :
    climbOn owner nodes min lhs pos = .ok ⟨lhs, pos, Nat.le_refl pos⟩ := by
  rw [climbOn]
  split
  · next t ht => exact absurd ht (h t)
  · rfl

theorem climb_ends (owner : Node) (nodes : List Node) :
    (∀ min pos r, climb owner nodes min pos = .ok r → Ends nodes min r.stop) ∧
      ∀ min lhs pos, pos ≤ nodes.length → ∀ r, climbOn owner nodes min lhs pos = .ok r →
        Ends nodes min r.stop := by
  refine climb.mutual_induct nodes _ _ ?_ ?_ ?_ ?_ ?_
  · intro min pos ih r hr
    rw [climb_eq] at hr
    obtain ⟨lhs, hlhs, hr⟩ := bind_eq_ok.mp hr
    have hlt : pos < nodes.length := by
      by_contra hge
      rw [List.getElem?_eq_none (by omega)] at hlhs
      cases hlhs
    exact ih lhs hlt r hr
  · intro min lhs pos t ht hop _ r hr
    rw [climbOn_of_unknown ht hop] at hr
    cases hr
  · intro min lhs pos t ht op hop hlt hle r hr
    rw [climbOn_of_lt ht hop hlt] at hr
    cases hr
    refine ⟨hle, fun u hu => ?_⟩
    cases ht.symm.trans hu
    exact ⟨op, hop, hlt⟩
  · intro min lhs pos t ht op hop hge ihr ihs _ r hr
    rw [climbOn_of_le ht hop hge] at hr
    obtain ⟨rhs, hrhs, hr⟩ := bind_eq_ok.mp hr
    obtain ⟨s, hs, rfl⟩ := map_eq_ok.mp hr
    exact ihs rhs (ihr rhs hrhs).le s hs
  · intro min lhs pos hother hle r hr
    rw [climbOn_of_other hother] at hr
    cases hr
    exact ⟨hle, fun t ht => (hother t ht).elim⟩

/-- What is read up to an end comes to stand where it would if all that follows were added one by
one. -/
theorem extend_climb (owner : Node) (nodes : List Node) :
    (∀ min pos around, Surrounds min around →
      ((ofOperand owner nodes[pos]?).bind fun operand =>
          extend owner (nodes.drop (pos + 1)) (around operand)) =
        (climb owner nodes min pos).bind fun r =>
          extend owner (nodes.drop r.stop) (around r.expr)) ∧
      ∀ min lhs pos around, Surrounds min around → Precedes nodes pos lhs →
        extend owner (nodes.drop pos) (around lhs) =
          (climbOn owner nodes min lhs pos).bind fun r =>
            extend owner (nodes.drop r.stop) (around r.expr) := by
  refine climb.mutual_induct nodes _ _ ?_ ?_ ?_ ?_ ?_
  · intro min pos ih around hs
    rw [climb_eq]
    cases hlhs : ofOperand owner nodes[pos]? with
    | error m => rfl
    | ok lhs =>
      have hnone : lhs.power? = none := ofOperand_power? hlhs
      exact ih lhs around hs (precedes_of_power?_eq_none hnone)
  · intro min lhs pos t ht hop around _ _
    rw [climbOn_of_unknown ht hop, extend_of_unknown ht hop]
    rfl
  · intro min lhs pos t ht op hop hlt around _ _
    rw [climbOn_of_lt ht hop hlt]
    rfl
  · intro min lhs pos t ht op hop hge ihr ihs around hs hp
    have hmin : min ≤ op.power := by omega
    have hroot : ∀ operand, append op t operand lhs = .binary op t lhs operand := by
      intro operand
      apply append_eq_binary
      intro p
      exact hp t op p ht hop
    rw [climbOn_of_le ht hop hge, extend_of_operator ht hop]
    simp only [hs op t _ _ hmin, hroot]
    -- Around the right operand stands, besides, the left one with the operator.
    rw [ihr _ (hs.binary hmin)]
    cases hrhs : climb owner nodes (op.power + 1) (pos + 1) with
    | error m => rfl
    | ok rhs =>
      have hends : Ends nodes (op.power + 1) rhs.stop := (climb_ends owner nodes).1 _ _ _ hrhs
      have hrest := ihs rhs around hs hends.precedes
      simp only [Except.bind] at hrest ⊢
      rw [hrest]
      cases climbOn owner nodes min (.binary op t lhs rhs.expr) rhs.stop with
      | error m => rfl
      | ok r => rfl
  · intro min lhs pos hother around _ _
    rw [climbOn_of_other hother]
    rfl

/-- Climbing adds the operators and operands one by one. -/
theorem ofNodes_eq_extend (owner : Node) (nodes : List Node) :
    ofNodes owner nodes =
      (ofOperand owner nodes.head?).bind fun first => extend owner nodes.tail first := by
  have hclimb := (extend_climb owner nodes).1 0 0 _ (Surrounds.refl 0)
  rw [List.head?_eq_getElem?, ← List.drop_one, hclimb, ofNodes]
  cases hr : climb owner nodes 0 0 with
  | error m => rfl
  | ok r =>
    have hends : Ends nodes 0 r.stop := (climb_ends owner nodes).1 _ _ _ hr
    simp only [bind, Except.bind]
    by_cases hstop : r.stop = nodes.length
    · rw [if_pos hstop, hstop, List.drop_length, extend_nil]
      rfl
    · have hle := hends.le
      have hnext := List.getElem?_eq_getElem (show r.stop < nodes.length by omega)
      rw [if_neg hstop, extend_of_other hnext]
      intro t ht
      obtain ⟨op, -, hpower⟩ := hends.lt t ht
      omega

theorem ofNodes_nil : ofNodes owner [] = .error (.node owner) := ofNodes_eq_extend owner []

end Expr

end ThreeAddress
