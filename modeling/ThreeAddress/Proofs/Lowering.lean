import ThreeAddress.Proofs.Meaning
import ThreeAddress.Proofs.Symbols

namespace ThreeAddress

universe u

variable {V : Type u}

namespace Code

theorem spill_eq_ok {e : Expr} {temps n : Nat} {a : Operand} {code : List Instruction}
    (h : spill e temps (into e) = .ok (a, code, n)) :
    (∃ t, (e = .literal t ∨ e = .name t) ∧ value t = .ok a ∧ code = [] ∧ n = temps) ∨
      a = .temp temps ∧ into e (.temp temps) (temps + 1) = .ok (code, n) := by
  cases e with
  | literal t =>
    obtain ⟨b, hb, h⟩ := map_eq_ok.mp h
    cases h
    exact .inl ⟨t, .inl rfl, hb, rfl, rfl⟩
  | name t =>
    obtain ⟨b, hb, h⟩ := map_eq_ok.mp h
    cases h
    exact .inl ⟨t, .inr rfl, hb, rfl, rfl⟩
  | call f args =>
    obtain ⟨x, hx, h⟩ := bind_eq_ok.mp h
    cases h
    exact .inr ⟨rfl, hx⟩
  | binary op t lhs rhs =>
    obtain ⟨x, hx, h⟩ := bind_eq_ok.mp h
    cases h
    exact .inr ⟨rfl, hx⟩

theorem into_binary_eq_ok {op : Operator} {t : Token} {lhs rhs : Expr} {dest : Operand}
    {temps n : Nat} {code : List Instruction}
    (h : into (.binary op t lhs rhs) dest temps = .ok (code, n)) :
    ∃ l left k r right, spill lhs temps (into lhs) = .ok (l, left, k) ∧
      spill rhs k (into rhs) = .ok (r, right, n) ∧
      code = left ++ right ++ [Instruction.binary op dest l r] := by
  rw [into] at h
  obtain ⟨⟨l, left, k⟩, hl, h⟩ := bind_eq_ok.mp h
  obtain ⟨⟨r, right, n'⟩, hr, h⟩ := bind_eq_ok.mp h
  cases h
  exact ⟨l, left, k, r, right, hl, hr, rfl⟩

theorem call_eq_ok {dest : Option Operand} {f : Token} {args : List Token}
    {code : List Instruction} (h : call dest f args = .ok code) :
    ∃ ps, List.Forall₂ (fun t x => ∃ a, value t = .ok a ∧ Instruction.param a = x) args ps ∧
      code = ps ++ [Instruction.call dest (.ofToken f) args.length] := by
  rw [call] at h
  obtain ⟨ps, hps, h⟩ := bind_eq_ok.mp h
  cases h
  exact ⟨ps, (forall₂_of_mapM hps).imp fun t x hx => map_eq_ok.mp hx, rfl⟩

end Code

@[simp] theorem Effect.after_after (calls calls' : List (Call V)) (e : Effect V) :
    (e.after calls').after calls = e.after (calls ++ calls') := by
  simp [after]

namespace Machine

variable (i : Interpretation V) (m : Machine V)

/-- The machine with other temporaries and more calls made. -/
def scratch (temps : Nat → V) (calls : List (Call V)) : Machine V :=
  { m with temps, calls := m.calls ++ calls }

@[simp] theorem store_scratch (temps : Nat → V) (calls : List (Call V)) :
    (m.scratch temps calls).store = m.store := rfl

@[simp] theorem temps_scratch (temps : Nat → V) (calls : List (Call V)) :
    (m.scratch temps calls).temps = temps := rfl

@[simp] theorem calls_scratch (temps : Nat → V) (calls : List (Call V)) :
    (m.scratch temps calls).calls = m.calls ++ calls := rfl

@[simp] theorem scratch_scratch (temps temps' : Nat → V) (calls calls' : List (Call V)) :
    (m.scratch temps calls).scratch temps' calls' = m.scratch temps' (calls ++ calls') := by
  simp [scratch]

theorem scratch_self : m.scratch m.temps [] = m := by
  simp [scratch]

theorem read_literal {t : Token} {a : Operand}
    (hn : t.kind = .number → Numeral.check t.lexeme.toList = .ok ())
    (h : Operand.ofLiteral? t = some a) : m.read i a = i.value m.store t := by
  unfold Operand.ofLiteral? at h
  unfold Interpretation.value
  split at h
  · next hk =>
    cases h
    rw [hk]
    rfl
  · next hk =>
    cases h
    rw [hk]
    rfl
  · next hk =>
    rw [hk]
    cases hf : Numeral.isFloat t.lexeme.toList with
    | true =>
      rw [hf] at h
      cases h
      rfl
    | false =>
      rw [hf, Numeral.value?_eq (hn hk) hf] at h
      obtain ⟨v, hv, rfl⟩ := Option.map_eq_some_iff.mp h
      have hv := (Option.filter_eq_some_iff.mp hv).1
      simp only [hv]
      rfl
  · cases h

/-- A token that code was made for is read as what it means. -/
theorem read_value {t : Token} {a : Operand} (hu : t.Usable) (h : Code.value t = .ok a) :
    m.read i a = i.value m.store t := by
  unfold Code.value at h
  cases hu.isValue with
  | name hk =>
    rw [if_pos hk] at h
    cases h
    rw [Interpretation.value, hk]
    rfl
  | literal hty hn =>
    split at h
    · next hk => simp [Ty.ofLiteral?, hk] at hty
    · split at h
      · next o ho =>
        cases h
        exact m.read_literal i hn ho
      · cases h

theorem read_zero (ty : Ty) : m.read i (.zero ty) = i.zero ty := by
  cases ty <;> rfl

/-- The arguments that are taken are those that were given last. -/
theorem take_append (f : String) (vs : List V) :
    { m with pending := m.pending ++ vs }.take f vs.length =
      some (vs, m.scratch m.temps [(f, vs)]) := by
  simp [take, scratch]

end Machine

namespace Interpretation

variable (i : Interpretation V) (m : Machine V)

@[simp] theorem run_copy (x a : Operand) (rest : List Instruction) :
    i.run m (.copy x a :: rest) = (m.write x (m.read i a)).bind fun m => i.run m rest := rfl

@[simp] theorem run_binary (op : Operator) (x a b : Operand) (rest : List Instruction) :
    i.run m (.binary op x a b :: rest) =
      (m.write x (i.operator op (m.read i a) (m.read i b))).bind fun m => i.run m rest := rfl

@[simp] theorem run_param (a : Operand) (rest : List Instruction) :
    i.run m (.param a :: rest) = i.run { m with pending := m.pending ++ [m.read i a] } rest := rfl

@[simp] theorem run_ret (a : Operand) (rest : List Instruction) :
    i.run m (.ret a :: rest) = some ⟨m.store, m.calls, some (m.read i a)⟩ := rfl

theorem run_paramIns (qs : List Param) (rest : List Instruction) :
    i.run m (qs.map (fun q => Instruction.paramIn (.ofToken q.name)) ++ rest) = i.run m rest := by
  induction qs with
  | nil => rfl
  | cons q qs ih => exact ih

theorem run_params {args : List Token} {ps : List Instruction} (hu : ∀ t ∈ args, t.Usable)
    (h : List.Forall₂ (fun t x => ∃ a, Code.value t = .ok a ∧ Instruction.param a = x) args ps)
    (rest : List Instruction) :
    i.run m (ps ++ rest) =
      i.run { m with pending := m.pending ++ args.map (i.value m.store) } rest := by
  induction h generalizing m with
  | nil => simp
  | cons hx _ ih =>
    obtain ⟨hu, hus⟩ := List.forall_mem_cons.mp hu
    obtain ⟨a, ha, rfl⟩ := hx
    rw [List.cons_append, run_param, ih _ hus, m.read_value i hu ha]
    simp

/-- A call with its arguments is one step. -/
theorem run_call {dest : Option Operand} {f : Token} {args : List Token} {code : List Instruction}
    (hu : ∀ t ∈ args, t.Usable) (h : Code.call dest f args = .ok code) (rest : List Instruction) :
    i.run m (code ++ rest) =
      ((m.scratch m.temps [(f.lexeme, args.map (i.value m.store))]).keep dest
        (i.function f.lexeme (args.map (i.value m.store)))).bind fun m => i.run m rest := by
  obtain ⟨ps, hps, rfl⟩ := Code.call_eq_ok h
  rw [List.append_assoc, i.run_params m hu hps]
  have htake := m.take_append f.lexeme (args.map (i.value m.store))
  rw [List.length_map] at htake
  simp only [List.singleton_append, Instruction.call, Operand.ofToken, run, Machine.step, htake,
    Option.bind_some]

/-- Code for an expression, with temporaries from a number on: it leaves those below alone and ends
by writing the value to its destination. -/
def Stores (e : Expr) : Prop :=
  ∀ {dest : Operand} {temps n : Nat} {code : List Instruction},
    Code.into e dest temps = .ok (code, n) → temps ≤ n ∧
      ∀ (m : Machine V) (rest : List Instruction), ∃ T : Nat → V, (∀ k < temps, T k = m.temps k) ∧
        i.run m (code ++ rest) =
          ((m.scratch T (i.eval m.store e).2).write dest (i.eval m.store e).1).bind
            fun m => i.run m rest

/-- Code for an operand: the operand has the value of the expression as long as the variables and
the temporaries that are in use stay. -/
theorem run_spill {e : Expr} {temps n : Nat} {a : Operand} {code : List Instruction}
    (hu : ∀ t ∈ e.values, t.Usable) (hs : i.Stores e)
    (h : Code.spill e temps (Code.into e) = .ok (a, code, n)) :
    temps ≤ n ∧ ∀ (m : Machine V) (rest : List Instruction), ∃ T : Nat → V,
      (∀ k < temps, T k = m.temps k) ∧
      i.run m (code ++ rest) = i.run (m.scratch T (i.eval m.store e).2) rest ∧
      ∀ m' : Machine V, m'.store = m.store → (∀ k < n, m'.temps k = T k) →
        m'.read i a = (i.eval m.store e).1 := by
  rcases Code.spill_eq_ok h with ⟨t, he, ha, rfl, rfl⟩ | ⟨rfl, hinto⟩
  · have hvalue : e.values = [t] ∧ ∀ s, i.eval s e = (i.value s t, []) := by
      rcases he with rfl | rfl <;> exact ⟨rfl, fun _ => rfl⟩
    have hut : t.Usable := hu t (hvalue.1 ▸ List.mem_singleton_self t)
    refine ⟨Nat.le_refl _, fun m rest => ⟨m.temps, fun _ _ => rfl, ?_, fun m' hm _ => ?_⟩⟩
    · rw [hvalue.2, m.scratch_self]
      rfl
    · rw [hvalue.2, m'.read_value i hut ha, hm]
  · obtain ⟨hn, hrun⟩ := hs hinto
    refine ⟨by omega, fun m rest => ?_⟩
    obtain ⟨T, hT, hrun⟩ := hrun m rest
    refine ⟨Function.update T temps (i.eval m.store e).1, fun k hk => ?_, hrun, fun m' _ hm => ?_⟩
    · rw [Function.update_of_ne (Nat.ne_of_lt hk), hT k (by omega)]
    · exact (hm temps (by omega)).trans (Function.update_self ..)

theorem stores_value {e : Expr} {t : Token} (he : e = .literal t ∨ e = .name t)
    (hu : t.Usable) : i.Stores e := by
  intro dest temps n code h
  have hvalue : Code.into e dest temps = (Code.value t).map (fun a => ([.copy dest a], temps)) ∧
      ∀ s, i.eval s e = (i.value s t, []) := by
    rcases he with rfl | rfl <;> exact ⟨rfl, fun _ => rfl⟩
  rw [hvalue.1] at h
  obtain ⟨a, ha, h⟩ := map_eq_ok.mp h
  cases h
  refine ⟨Nat.le_refl _, fun m rest => ⟨m.temps, fun _ _ => rfl, ?_⟩⟩
  rw [hvalue.2, m.scratch_self, List.singleton_append, run_copy, m.read_value i hu ha]

theorem stores {e : Expr} (hu : ∀ t ∈ e.values, t.Usable) : i.Stores e := by
  induction e with
  | literal t => exact i.stores_value (.inl rfl) (hu t (List.mem_singleton_self t))
  | name t => exact i.stores_value (.inr rfl) (hu t (List.mem_singleton_self t))
  | call f args =>
    intro dest temps n code h
    obtain ⟨made, hc, h⟩ := map_eq_ok.mp h
    cases h
    refine ⟨Nat.le_refl _, fun m rest => ⟨m.temps, fun _ _ => rfl, ?_⟩⟩
    exact i.run_call m hu hc rest
  | binary op t lhs rhs hl hr =>
    intro dest temps n code h
    obtain ⟨hul, hur⟩ := List.forall_mem_append.mp hu
    obtain ⟨l, left, k, r, right, hleft, hright, rfl⟩ := Code.into_binary_eq_ok h
    obtain ⟨hk, hrunl⟩ := i.run_spill hul (hl hul) hleft
    obtain ⟨hn, hrunr⟩ := i.run_spill hur (hr hur) hright
    refine ⟨Nat.le_trans hk hn, fun m rest => ?_⟩
    obtain ⟨T, hT, hrunl, hreadl⟩ := hrunl m (right ++ (.binary op dest l r :: rest))
    obtain ⟨T', hT', hrunr, hreadr⟩ :=
      hrunr (m.scratch T (i.eval m.store lhs).2) (.binary op dest l r :: rest)
    -- The right operand leaves the temporaries of the left one alone.
    have hkeep : ∀ j < k, T' j = T j := hT'
    refine ⟨T', fun j hj => (hkeep j (by omega)).trans (hT j hj), ?_⟩
    have hl := hreadl (m.scratch T' ((i.eval m.store lhs).2 ++ (i.eval m.store rhs).2)) rfl hkeep
    have hr := hreadr (m.scratch T' ((i.eval m.store lhs).2 ++ (i.eval m.store rhs).2)) rfl
      fun _ _ => rfl
    rw [List.append_assoc, List.append_assoc, List.singleton_append, hrunl, hrunr,
      Machine.store_scratch, Machine.scratch_scratch, run_binary, hl, hr]
    rfl

/-- Code for an expression that a variable is set to. -/
theorem run_assign {e : Expr} {target : Token} {temps n : Nat} {code : List Instruction}
    (hu : ∀ t ∈ e.values, t.Usable) (h : Code.into e (.ofToken target) temps = .ok (code, n))
    (rest : List Instruction) :
    ∃ m' : Machine V, m'.store = Function.update m.store target.lexeme (i.eval m.store e).1 ∧
      m'.calls = m.calls ++ (i.eval m.store e).2 ∧ i.run m (code ++ rest) = i.run m' rest := by
  obtain ⟨T, -, hrun⟩ := (i.stores hu h).2 m rest
  exact ⟨_, rfl, rfl, hrun⟩

theorem run_return {e : Expr} {temps n : Nat} {a : Operand} {code : List Instruction}
    (hu : ∀ t ∈ e.values, t.Usable) (h : Code.operand e temps = .ok (a, code, n))
    (rest : List Instruction) :
    i.run m (code ++ [Instruction.ret a] ++ rest) =
      some ⟨m.store, m.calls ++ (i.eval m.store e).2, some (i.eval m.store e).1⟩ := by
  rw [Code.operand_eq_spill] at h
  obtain ⟨T, -, hrun, hread⟩ := (i.run_spill hu (i.stores hu) h).2 m (.ret a :: rest)
  have hread := hread (m.scratch T (i.eval m.store e).2) rfl fun _ _ => rfl
  rw [List.append_assoc, List.singleton_append, hrun, run_ret, hread]
  rfl

variable {p : Program} {symbols : SymbolTable} {func : Token} {ss : List Stmt} {temps n : Nat}
  {code rest : List Instruction}

section
variable
  (hrest : ∀ m : Machine V, ∃ o, p.Runs i ss m.store o ∧ i.run m rest = some (o.after m.calls))
include hrest

/-- A variable is set, and the code behind runs from there. -/
theorem run_set {target : Token} {e : Expr} (hu : ∀ t ∈ e.values, t.Usable)
    (h : Code.into e (.ofToken target) temps = .ok (code, n)) :
    ∃ o, p.Runs i ss (Function.update m.store target.lexeme (i.eval m.store e).1) o ∧
      i.run m (code ++ rest) = some ((o.after (i.eval m.store e).2).after m.calls) := by
  obtain ⟨m', hstore, hcalls, hrun⟩ := i.run_assign m hu h rest
  obtain ⟨o, ho, hnext⟩ := hrest m'
  rw [hstore] at ho
  refine ⟨o, ho, ?_⟩
  rw [hrun, hnext, hcalls, Effect.after_after]

/-- The code of a statement does what it says if the code behind it does what the statements behind
it say, from wherever it is reached. -/
theorem run_statement {s : Stmt} (hu : ∀ t ∈ s.values, t.Usable)
    (hl : ∀ v ∈ s.declared, ∃ x ty,
      symbols.local? func.lexeme v.1.lexeme = some x ∧ x.ty = some ty ∧ p.Denotes v.2 ty)
    (h : Code.statement symbols func s temps = .ok (code, n)) :
    ∃ o, p.Runs i (s :: ss) m.store o ∧ i.run m (code ++ rest) = some (o.after m.calls) := by
  cases s with
  | «local» name type init =>
    cases init with
    | none =>
      obtain ⟨x, ty, hx, hty, ht⟩ := hl (name, type) (List.mem_singleton_self _)
      have hz : Code.zero (symbols.local? func.lexeme name.lexeme) name = .ok (.zero ty) := by
        rw [Code.zero, hx, Option.bind_some, hty]
      rw [Code.statement, hz] at h
      cases h
      obtain ⟨o, ho, hnext⟩ := hrest
        { m with store := Function.update m.store name.lexeme (i.zero ty) }
      refine ⟨_, .declare ht ho, ?_⟩
      rw [List.singleton_append, run_copy, m.read_zero]
      exact hnext
    | some e =>
      rw [Code.statement, Code.store_eq_into] at h
      obtain ⟨o, ho, hrun⟩ := i.run_set m hrest hu h
      exact ⟨_, .init ho, hrun⟩
  | assign target e =>
    rw [Code.statement, Code.store_eq_into] at h
    obtain ⟨o, ho, hrun⟩ := i.run_set m hrest hu h
    exact ⟨_, .assign ho, hrun⟩
  | call f args =>
    obtain ⟨c, hc, h⟩ := bind_eq_ok.mp h
    cases h
    obtain ⟨o, ho, hnext⟩ := hrest (m.scratch m.temps [(f.lexeme, args.map (i.value m.store))])
    refine ⟨_, .call ho, ?_⟩
    rw [i.run_call m hu hc]
    exact hnext.trans (by rw [Effect.after_after, Machine.calls_scratch])
  | ret keyword e =>
    obtain ⟨⟨a, c, k⟩, hc, h⟩ := bind_eq_ok.mp h
    cases h
    refine ⟨_, .ret, ?_⟩
    rw [i.run_return m hu hc]
    rfl

end

/-- The code of statements does what they say, whatever was called before. -/
theorem run_statements (hu : ∀ s ∈ ss, ∀ t ∈ s.values, t.Usable)
    (hl : ∀ v ∈ ss.flatMap Stmt.declared, ∃ x ty,
      symbols.local? func.lexeme v.1.lexeme = some x ∧ x.ty = some ty ∧ p.Denotes v.2 ty)
    (h : Code.statements symbols func ss temps = .ok code) :
    ∃ o, p.Runs i ss m.store o ∧ i.run m code = some (o.after m.calls) := by
  induction ss generalizing temps code m with
  | nil =>
    cases h
    exact ⟨_, .nil, by simp [run, Effect.after]⟩
  | cons s ss ih =>
    obtain ⟨hu, hus⟩ := List.forall_mem_cons.mp hu
    rw [List.flatMap_cons, List.forall_mem_append] at hl
    rw [Code.statements] at h
    obtain ⟨⟨made, n⟩, hs, h⟩ := bind_eq_ok.mp h
    obtain ⟨more, hss, h⟩ := bind_eq_ok.mp h
    cases h
    exact i.run_statement m (fun m' => ih m' hus hl.2 hss) hu hl.1 hs

end Interpretation

/-- Can stand inside a function: neither opens nor ends one, nor declares a global. -/
def Instruction.inner (x : Instruction) : Bool :=
  match x.op with
  | .global => false
  | .func => false
  | .endFunc => false
  | _ => true

namespace Code

variable {symbols : SymbolTable}

theorem inner_call {dest : Option Operand} {f : Token} {args : List Token}
    {code : List Instruction} (h : call dest f args = .ok code) : ∀ x ∈ code, x.inner = true := by
  obtain ⟨ps, hps, rfl⟩ := call_eq_ok h
  rw [List.forall_mem_append, List.forall_mem_singleton]
  refine ⟨fun x hx => ?_, rfl⟩
  obtain ⟨t, -, a, -, rfl⟩ := exists_of_mem_left hps.flip hx
  rfl

theorem inner_spill {e : Expr} {temps n : Nat} {a : Operand} {code : List Instruction}
    (hi : ∀ {dest temps n code}, into e dest temps = .ok (code, n) → ∀ x ∈ code, x.inner = true)
    (h : spill e temps (into e) = .ok (a, code, n)) : ∀ x ∈ code, x.inner = true := by
  rcases spill_eq_ok h with ⟨t, -, -, rfl, -⟩ | ⟨-, hinto⟩
  · exact List.forall_mem_nil _
  · exact hi hinto

theorem inner_into {e : Expr} {dest : Operand} {temps n : Nat} {code : List Instruction}
    (h : into e dest temps = .ok (code, n)) : ∀ x ∈ code, x.inner = true := by
  induction e generalizing dest temps n code with
  | literal t =>
    obtain ⟨a, -, h⟩ := map_eq_ok.mp h
    cases h
    exact List.forall_mem_singleton.mpr rfl
  | name t =>
    obtain ⟨a, -, h⟩ := map_eq_ok.mp h
    cases h
    exact List.forall_mem_singleton.mpr rfl
  | call f args =>
    obtain ⟨made, hc, h⟩ := map_eq_ok.mp h
    cases h
    exact inner_call hc
  | binary op t lhs rhs hl hr =>
    obtain ⟨l, left, k, r, right, hleft, hright, rfl⟩ := into_binary_eq_ok h
    rw [List.forall_mem_append, List.forall_mem_append, List.forall_mem_singleton]
    exact ⟨⟨inner_spill hl hleft, inner_spill hr hright⟩, rfl⟩

theorem inner_statement {func : Token} {s : Stmt} {temps n : Nat} {code : List Instruction}
    (h : statement symbols func s temps = .ok (code, n)) : ∀ x ∈ code, x.inner = true := by
  cases s with
  | «local» name type init =>
    cases init with
    | none =>
      obtain ⟨v, -, h⟩ := bind_eq_ok.mp h
      cases h
      exact List.forall_mem_singleton.mpr rfl
    | some e =>
      rw [statement, store_eq_into] at h
      exact inner_into h
  | assign target e =>
    rw [statement, store_eq_into] at h
    exact inner_into h
  | call f args =>
    obtain ⟨c, hc, h⟩ := bind_eq_ok.mp h
    cases h
    exact inner_call hc
  | ret keyword e =>
    obtain ⟨⟨a, c, k⟩, hc, h⟩ := bind_eq_ok.mp h
    cases h
    rw [operand_eq_spill] at hc
    rw [List.forall_mem_append, List.forall_mem_singleton]
    exact ⟨inner_spill inner_into hc, rfl⟩

theorem inner_statements {func : Token} {ss : List Stmt} {temps : Nat} {code : List Instruction}
    (h : statements symbols func ss temps = .ok code) : ∀ x ∈ code, x.inner = true := by
  induction ss generalizing temps code with
  | nil =>
    cases h
    exact List.forall_mem_nil _
  | cons s ss ih =>
    rw [statements] at h
    obtain ⟨⟨made, n⟩, hs, h⟩ := bind_eq_ok.mp h
    obtain ⟨more, hss, h⟩ := bind_eq_ok.mp h
    cases h
    exact List.forall_mem_append.mpr ⟨inner_statement hs, ih hss⟩

/-- The code of a function, its opening and end left out. -/
theorem routine_eq_ok {r : Routine} {code : List Instruction} (h : routine symbols r = .ok code) :
    ∃ body, statements symbols r.name r.body 0 = .ok body ∧
      code = Instruction.func (.ofToken r.name) r.params.length ::
        (r.params.map (fun q => Instruction.paramIn (.ofToken q.name)) ++ body) ++
          [Instruction.endFunc (.ofToken r.name)] ∧
      ∀ x ∈ r.params.map (fun q => Instruction.paramIn (.ofToken q.name)) ++ body, x.inner = true := by
  rw [routine] at h
  obtain ⟨body, hb, h⟩ := bind_eq_ok.mp h
  cases h
  refine ⟨body, hb, rfl, List.forall_mem_append.mpr ⟨fun x hx => ?_, inner_statements hb⟩⟩
  obtain ⟨q, -, rfl⟩ := List.mem_map.mp hx
  rfl

theorem global_eq_ok {name type : Token} {init : Option Token} {code : List Instruction}
    (h : global symbols name type init = .ok code) :
    ∃ v, code = [.global (.ofToken name), .copy (.ofToken name) v] := by
  rw [global] at h
  obtain ⟨a, -, h⟩ := bind_eq_ok.mp h
  cases init with
  | none =>
    cases h
    exact ⟨a, rfl⟩
  | some t =>
    obtain ⟨v, -, h⟩ := bind_eq_ok.mp h
    cases h
    exact ⟨v, rfl⟩

theorem not_opens {x : Instruction} (h : x.inner = true) (f : String) : x.opens f = false := by
  rw [Instruction.opens, decide_eq_false_iff_not]
  rintro ⟨hop, -⟩
  rw [Instruction.inner, hop] at h
  cases h

theorem not_closes {x : Instruction} (h : x.inner = true) (f : String) : x.closes f = false := by
  rw [Instruction.closes, decide_eq_false_iff_not]
  rintro ⟨hop, -⟩
  rw [Instruction.inner, hop] at h
  cases h

/-- The code of a declaration opens no function but the one that it declares. -/
theorem not_opens_of_decl {d : Decl} {code : List Instruction} {f : String}
    (h : decl symbols d = .ok code) (hf : d.name.lexeme ≠ f) :
    ∀ x ∈ code, x.opens f = false := by
  cases d with
  | «alias» name target =>
    cases h
    exact List.forall_mem_nil _
  | «global» name type init =>
    obtain ⟨v, rfl⟩ := global_eq_ok h
    intro x hx
    simp only [List.mem_cons, List.not_mem_nil, or_false] at hx
    rcases hx with rfl | rfl <;> rfl
  | routine r =>
    obtain ⟨body, -, rfl, hinner⟩ := routine_eq_ok h
    have hf : r.name.lexeme ≠ f := hf
    have hhead : Instruction.opens f (.func (.ofToken r.name) r.params.length) = false := by
      simpa [Instruction.opens, Instruction.func, Operand.ofToken] using hf
    have hlast : Instruction.opens f (.endFunc (.ofToken r.name)) = false := rfl
    rw [List.forall_mem_append, List.forall_mem_cons, List.forall_mem_singleton]
    exact ⟨⟨hhead, fun x hx => not_opens (hinner x hx) f⟩, hlast⟩

/-- Between the opening and the end of a function stand its parameters and its statements. -/
theorem between_routine {r : Routine} {body rest : List Instruction} (hinner : ∀ x ∈ body, x.inner = true) :
    between r.name.lexeme (.func (.ofToken r.name) r.params.length :: body ++
      [Instruction.endFunc (.ofToken r.name)] ++ rest) = body := by
  have hopens : Instruction.opens r.name.lexeme (.func (.ofToken r.name) r.params.length) = true := by
    simp [Instruction.opens, Instruction.func, Operand.ofToken]
  have hcloses : Instruction.closes r.name.lexeme (.endFunc (.ofToken r.name)) = true := by
    simp [Instruction.closes, Instruction.endFunc, Operand.ofToken]
  have hbody : ∀ x ∈ body, (!x.closes r.name.lexeme) = true := fun x hx => by
    rw [not_closes (hinner x hx)]
    rfl
  rw [between, List.cons_append, List.cons_append, List.dropWhile_cons_of_neg (by simp [hopens]),
    List.tail_cons, List.append_assoc, List.takeWhile_append_of_pos hbody, List.singleton_append,
    List.takeWhile_cons_of_neg (by simp [hcloses]), List.append_nil]

/-- The code of declarations has that of a function between its opening and its end, if no other
declaration has the name. -/
theorem between_flatten {ds : List Decl} {codes : List (List Instruction)} {r : Routine}
    (h : List.Forall₂ (fun d code => decl symbols d = .ok code) ds codes) (hr : .routine r ∈ ds)
    (hone : ∀ d ∈ ds, d.name.lexeme = r.name.lexeme → d = .routine r) :
    ∃ body, statements symbols r.name r.body 0 = .ok body ∧
      between r.name.lexeme codes.flatten =
        r.params.map (fun q => Instruction.paramIn (.ofToken q.name)) ++ body := by
  induction h with
  | nil => cases hr
  | @cons d code ds codes hd hs ih =>
    obtain ⟨hone, hones⟩ := List.forall_mem_cons.mp hone
    rw [List.flatten_cons]
    by_cases hn : d.name.lexeme = r.name.lexeme
    · obtain rfl := hone hn
      obtain ⟨body, hb, rfl, hinner⟩ := routine_eq_ok hd
      exact ⟨body, hb, between_routine hinner⟩
    · have hr : .routine r ∈ ds := by
        rcases List.mem_cons.mp hr with rfl | hr
        · exact absurd rfl hn
        · exact hr
      obtain ⟨body, hb, hbetween⟩ := ih hr hones
      refine ⟨body, hb, ?_⟩
      have hskip : ∀ x ∈ code, (!x.opens r.name.lexeme) = true := fun x hx => by
        rw [not_opens_of_decl hd hn x hx]
        rfl
      rw [between, List.dropWhile_append_of_pos hskip]
      exact hbetween

end Code

/-- In a well-formed program statements run in one way. -/
theorem Program.WellFormed.runs_unique {p : Program} (hwf : p.WellFormed) {i : Interpretation V}
    {ss : List Stmt} {s : Store V} {o o' : Effect V} (h : p.Runs i ss s o) (h' : p.Runs i ss s o') :
    o = o' := by
  induction h generalizing o' with
  | nil =>
    cases h'
    rfl
  | declare ht _ ih =>
    cases h' with
    | declare ht' h' =>
      obtain rfl := hwf.denotes_unique ht ht'
      exact ih h'
  | init _ ih =>
    cases h' with
    | init h' => rw [ih h']
  | assign _ ih =>
    cases h' with
    | assign h' => rw [ih h']
  | call _ ih =>
    cases h' with
    | call h' => rw [ih h']
  | ret =>
    cases h'
    rfl

/-- Code keeps the meaning of every function of a valid batch, for every interpretation, whatever
the variables and temporaries hold at its start: the instructions between its opening and its end
leave the variables, make the calls and return the value that its statements do, and nothing else
can come of the statements. -/
theorem emit_keeps_meaning (outcomes : List (Option Tree))
    (h : ∀ t, some t ∈ outcomes → t.FromSource)
    (hv : (Analysis.ofOutcomes outcomes).valid = true) :
    ∃ ps, outcomes.reduceOption.mapM Tree.program = .ok ps ∧
      ∀ t, some t ∈ outcomes → ∃ p code, t.program = .ok p ∧
        t.emit Phase.table (Analysis.ofOutcomes outcomes).symbols = .ok code ∧
        ∀ r, .routine r ∈ p → ∀ {V : Type u} (i : Interpretation V) (s : Store V)
          (temps : Nat → V), ∃ o,
            i.run (.start s temps) (Code.between r.name.lexeme code) = some o ∧
            ∀ o', Program.Runs ps.flatten i r.body s o' ↔ o' = o := by
  obtain ⟨ps, hps, hwf, hw, hserves, hphrase⟩ := Analysis.program_of_valid h hv
  refine ⟨ps, hps, fun t ht => ?_⟩
  obtain ⟨f, hitems, hsub⟩ := hphrase t ht
  obtain ⟨codes, hcodes⟩ := mapM_ok fun d hd =>
    Code.decl_ok hserves (hsub hd) (hwf.usable hw (hsub hd))
  have hemit : t.emit Phase.table (Analysis.ofOutcomes outcomes).symbols = .ok codes.flatten := by
    rw [Tree.emit_eq _ hitems, hcodes]
    rfl
  refine ⟨_, _, Phrase.File.program_of_items hitems, hemit, fun r hr V i s temps => ?_⟩
  have hone : ∀ d ∈ f.program, d.name.lexeme = r.name.lexeme → d = .routine r := fun d hd hn =>
    hwf.decl_unique (hsub hd) (hsub hr) hn
  obtain ⟨body, hbody, hbetween⟩ := Code.between_flatten (forall₂_of_mapM hcodes) hr hone
  have hu : ∀ s ∈ r.body, ∀ u ∈ s.values, u.Usable := fun s hs u hu =>
    hwf.usable hw (hsub hr) u (List.mem_flatMap.mpr ⟨s, hs, hu⟩)
  obtain ⟨o, ho, hrun⟩ :=
    i.run_statements (.start s temps) hu (fun v hv => hserves.locals (hsub hr) v hv) hbody
  refine ⟨o, ?_, fun o' => ⟨fun h' => hwf.runs_unique h' ho, fun h' => h' ▸ ho⟩⟩
  rw [hbetween, i.run_paramIns, hrun]
  rfl

/-- A call inside an assignment to its own argument, and a local without a value whose type is an
alias of another file. -/
theorem emit_keeps_meaning_nested_call :
    let source := Tree.ofText? "b" "func f(x: n): int { var y: n; x = x + f(x) * x; return x + y; }"
    let outcomes := [Tree.ofText? "a" "type n = int;", none, source]
    let i : Interpretation Nat :=
      ⟨id, fun _ => 0, Bool.toNat, fun op a b => if op = .mul then a * b else a + b,
        fun _ values => values.headD 0⟩
    ∃ t ps p code r o, source = some t ∧ outcomes.reduceOption.mapM Tree.program = .ok ps ∧
      t.program = .ok p ∧ .routine r ∈ p ∧
      t.emit Phase.table (Analysis.ofOutcomes outcomes).symbols = .ok code ∧
      i.run (.start (fun _ => 3) fun _ => 0) (Code.between r.name.lexeme code) = some o ∧
      Program.Runs ps.flatten i r.body (fun _ => 3) o ∧
      o.calls = [("f", [3])] ∧ o.returned = some 12 := by
  rw [Tree.ofText?_ofList, Tree.ofText?_ofList]
  intro source outcomes i
  obtain ⟨t, ht⟩ : ∃ t, source = some t := Option.isSome_iff_exists.mp (by decide +kernel)
  obtain ⟨ps, hps, hbatch⟩ :=
    emit_keeps_meaning outcomes Tree.fromSource_of_mem_pair (by decide +kernel)
  obtain ⟨p, code, hp, hcode, hruns⟩ := hbatch t (by simp [outcomes, ht])
  have hname : (source.bind fun t => t.program.toOption.map fun p =>
      (p.filterMap Decl.routine?).map (·.name.lexeme)) = some ["f"] := by decide +kernel
  have hvalue : (source.bind fun t =>
      (t.emit Phase.table (Analysis.ofOutcomes outcomes).symbols).toOption.bind fun code =>
        (i.run (.start (fun _ => 3) fun _ => 0) (Code.between "f" code)).map fun o =>
          (o.calls, o.returned)) = some ([("f", [3])], some 12) := by decide +kernel
  simp only [ht, hp, Except.toOption, Option.bind_some, Option.map_some, Option.some.injEq] at hname
  obtain ⟨r, hr, hf⟩ := List.mem_map.mp (hname ▸ List.mem_singleton_self "f")
  have hr := Decl.mem_filterMap_routine?.mp hr
  obtain ⟨o, hrun, ho⟩ := hruns r hr i (fun _ => 3) fun _ => 0
  have hresult : (i.run (.start (fun _ => 3) fun _ => 0) (Code.between "f" code)) = some o :=
    hf ▸ hrun
  rw [ht, Option.bind_some, hcode, Except.toOption, Option.bind_some, hresult] at hvalue
  obtain ⟨hcalls, hreturned⟩ := Prod.mk.inj (Option.some.inj hvalue)
  exact ⟨t, ps, p, code, r, o, ht, hps, hp, hr, hcode, hrun, (ho o).mpr rfl, hcalls, hreturned⟩

end ThreeAddress
