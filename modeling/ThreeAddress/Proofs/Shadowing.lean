import ThreeAddress.Proofs.Lowering

namespace ThreeAddress

/-- The declaration of a variable, told by its name and its place. -/
inductive Referent where
  | local (name : String) (site : Site)
  | global (name : String) (site : Site)
  deriving DecidableEq, Repr

namespace Referent

def name : Referent → String
  | .local x _ => x
  | .global x _ => x

end Referent

namespace Scope

variable {c : Scope} {x : String}

/-- The variable that a name stands for. -/
def referent? (c : Scope) (x : String) : Option Referent :=
  match c.locals[x]? with
  | some l => some (.local x l.site)
  | none =>
    match c.symbols.get? x with
    | some s => if s.kind = .variable then some (.global x s.site) else none
    | none => none

theorem referent?_of_local {l : Local} (h : c.locals[x]? = some l) :
    c.referent? x = some (.local x l.site) := by
  simp only [referent?, h]

/-- A name has a type as a variable exactly when it stands for one. -/
theorem nameType_ok_iff : (∃ ty, c.nameType x = .ok ty) ↔ ∃ d, c.referent? x = some d := by
  unfold nameType referent?
  cases c.locals[x]? with
  | some l => simp
  | none =>
    cases c.symbols.get? x with
    | none => simp
    | some s => by_cases hk : s.kind = .variable <;> simp [hk]

theorem name_of_referent? {d : Referent} (h : c.referent? x = some d) : d.name = x := by
  unfold referent? at h
  cases hl : c.locals[x]? with
  | some l =>
    rw [hl] at h
    cases h
    rfl
  | none =>
    rw [hl] at h
    cases hs : c.symbols.get? x with
    | none =>
      rw [hs] at h
      cases h
    | some s =>
      rw [hs] at h
      by_cases hk : s.kind = .variable
      · simp only [hk, if_true, Option.some.injEq] at h
        rw [← h]
        rfl
      · simp [hk] at h

/-- A name that is no local stands for the global. -/
theorem global_of_referent? (hl : c.locals[x]? = none) {d : Referent}
    (h : c.referent? x = some d) : ∃ site, d = .global x site := by
  unfold referent? at h
  rw [hl] at h
  cases hs : c.symbols.get? x with
  | none =>
    rw [hs] at h
    cases h
  | some s =>
    rw [hs] at h
    by_cases hk : s.kind = .variable
    · simp only [hk, if_true, Option.some.injEq] at h
      exact ⟨s.site, h.symm⟩
    · simp [hk] at h

theorem referent?_congr {c' : Scope} (hs : c'.symbols = c.symbols) (hl : c.locals[x]? = none)
    (hl' : c'.locals[x]? = none) : c'.referent? x = c.referent? x := by
  simp only [referent?, hs, hl, hl']

end Scope

namespace Frame

variable {f : Frame} {x : String} {l : Local}

theorem symbols_statement (f : Frame) (s : Stmt) :
    (f.statement s).1.scope.symbols = f.scope.symbols := by
  cases s with
  | «local» name type init =>
    simp only [statement, declare]
    cases f.scope.locals[name.lexeme]? <;> rfl
  | _ => rfl

/-- A statement leaves the locals in scope. -/
theorem local_statement (h : f.scope.locals[x]? = some l) (s : Stmt) :
    (f.statement s).1.scope.locals[x]? = some l := by
  cases s with
  | «local» name type init =>
    simp only [statement, declare]
    cases hn : f.scope.locals[name.lexeme]? with
    | some first => exact h
    | none =>
      have hne : name.lexeme ≠ x := by
        intro hx
        rw [hx, h] at hn
        cases hn
      simp [Scope.add, Std.TreeMap.getElem?_insert, hne, h]
  | _ => exact h

/-- A local that is new behind a statement is declared by it. -/
theorem declared_of_statement (h : f.scope.locals[x]? = none) {s : Stmt}
    (hl : (f.statement s).1.scope.locals[x]? = some l) :
    ∃ v ∈ s.declared, v.1.lexeme = x ∧ v.1.site = l.site := by
  cases s with
  | «local» name type init =>
    simp only [statement, declare] at hl
    cases hn : f.scope.locals[name.lexeme]? with
    | some first =>
      simp [hn, h] at hl
    | none =>
      simp only [hn, Scope.add, Std.TreeMap.getElem?_insert] at hl
      by_cases hx : name.lexeme = x
      · simp only [hx, Std.compare_self, if_true, Option.some.injEq] at hl
        exact ⟨(name, type), List.mem_cons_self, hx, by rw [← hl]⟩
      · simp [hx, h] at hl
  | _ =>
    have hl : f.scope.locals[x]? = some l := hl
    rw [h] at hl
    cases hl

/-- What is known behind statements. -/
def after (f : Frame) (ss : List Stmt) : Frame := ss.foldl (fun f s => (f.statement s).1) f

theorem after_append (f : Frame) (ss ss' : List Stmt) :
    f.after (ss ++ ss') = (f.after ss).after ss' :=
  List.foldl_append

/-- Behind more statements, from what is known behind fewer. -/
theorem after_take (f : Frame) (ss : List Stmt) {m n : Nat} (h : m ≤ n) :
    f.after (ss.take n) = (f.after (ss.take m)).after ((ss.take n).drop m) := by
  have hsplit := List.take_append_drop m (ss.take n)
  rw [List.take_take, Nat.min_eq_left h] at hsplit
  rw [← after_append, hsplit]

theorem symbols_after (f : Frame) (ss : List Stmt) :
    (f.after ss).scope.symbols = f.scope.symbols := by
  induction ss generalizing f with
  | nil => rfl
  | cons s ss ih => exact (ih (f.statement s).1).trans (f.symbols_statement s)

theorem local_after (h : f.scope.locals[x]? = some l) (ss : List Stmt) :
    (f.after ss).scope.locals[x]? = some l := by
  induction ss generalizing f with
  | nil => exact h
  | cons s ss ih => exact ih (local_statement h s)

/-- A local that is new behind statements is declared by one of them. -/
theorem declared_of_after (h : f.scope.locals[x]? = none) {ss : List Stmt}
    (hl : (f.after ss).scope.locals[x]? = some l) :
    ∃ (k : Nat) (s : Stmt), ss[k]? = some s ∧
      ∃ v ∈ s.declared, v.1.lexeme = x ∧ v.1.site = l.site := by
  induction ss generalizing f with
  | nil =>
    have hl : f.scope.locals[x]? = some l := hl
    rw [h] at hl
    cases hl
  | cons s ss ih =>
    cases hs : (f.statement s).1.scope.locals[x]? with
    | some l' =>
      have hstay : (f.after (s :: ss)).scope.locals[x]? = some l' := local_after hs ss
      obtain rfl := Option.some.inj (hstay.symm.trans hl)
      exact ⟨0, s, rfl, declared_of_statement h hs⟩
    | none =>
      obtain ⟨k, s', hk, hv⟩ := ih hs hl
      exact ⟨k + 1, s', hk, hv⟩

end Frame

/-- A variable in a body: the number of the statement, and whether the statement declares it. -/
structure Occurrence where
  statement : Nat
  declares : Bool
  token : Token
  deriving DecidableEq, Repr

namespace Occurrence

/-- What code writes for the variable. -/
def operand (o : Occurrence) : Operand := .ofToken o.token

/-- How many statements have their locals in scope there. A local is in scope behind the statement
that declares it. -/
def seen (o : Occurrence) : Nat := o.statement + o.declares.toNat

end Occurrence

namespace Stmt

def targets : Stmt → List Token
  | .assign target _ => [target]
  | _ => []

/-- The variables that a statement assigns to or reads. -/
def uses (s : Stmt) : List Token := s.targets ++ s.values.filter (·.kind = .ident)

/-- The variables of a statement of the given number. -/
def occurrences (s : Stmt) (i : Nat) : List Occurrence :=
  s.declared.map (fun v => ⟨i, true, v.1⟩) ++ s.uses.map (⟨i, false, ·⟩)

end Stmt

/-- The variables of a body, statement by statement. -/
def occurrences (ss : List Stmt) : List Occurrence :=
  ss.zipIdx.flatMap fun (s, i) => s.occurrences i

namespace Frame

variable {f : Frame} {ss : List Stmt} {o o' : Occurrence}

/-- The variable that a name in a body stands for. -/
def referent? (f : Frame) (ss : List Stmt) (o : Occurrence) : Option Referent :=
  (f.after (ss.take o.seen)).scope.referent? o.token.lexeme

/-- The first name stands for a global, and the second for a local with the name of the global that
is declared in between. -/
def Shadowed (f : Frame) (ss : List Stmt) (o o' : Occurrence) : Prop :=
  ∃ (x : String) (site site' : Site), f.referent? ss o = some (.global x site) ∧
    f.referent? ss o' = some (.local x site') ∧
    ∃ (k : Nat) (s : Stmt), o.seen ≤ k ∧ k < o'.seen ∧ ss[k]? = some s ∧
      ∃ v ∈ s.declared, v.1.lexeme = x ∧ v.1.site = site'

theorem operand_eq_of_referent? {d d' : Referent} (h : f.referent? ss o = some d)
    (h' : f.referent? ss o' = some d') (hd : d.name = d'.name) : o.operand = o'.operand := by
  have hx : o.token.lexeme = o'.token.lexeme := by
    rw [← Scope.name_of_referent? h, hd, Scope.name_of_referent? h']
  exact congrArg Operand.name hx

theorem Shadowed.operand_eq (h : f.Shadowed ss o o') : o.operand = o'.operand := by
  obtain ⟨x, site, v, hglobal, hlocal, -⟩ := h
  exact operand_eq_of_referent? hglobal hlocal rfl

/-- Of two names that are written alike, the later one stands for the same variable, or for a local
that has come in between. -/
theorem referent?_of_operand_eq (hle : o.seen ≤ o'.seen) (hx : o.operand = o'.operand)
    (h : ∃ d, f.referent? ss o = some d) :
    f.referent? ss o = f.referent? ss o' ∨ f.Shadowed ss o o' := by
  have hx : o.token.lexeme = o'.token.lexeme := Operand.name.inj hx
  obtain ⟨d, hd⟩ := h
  have hafter := f.after_take ss hle
  cases hl : (f.after (ss.take o.seen)).scope.locals[o.token.lexeme]? with
  | some l =>
    -- A local stays in scope to the end of the body.
    have hl' := local_after hl ((ss.take o'.seen).drop o.seen)
    rw [← hafter] at hl'
    refine .inl ?_
    rw [referent?, referent?, ← hx, Scope.referent?_of_local hl, Scope.referent?_of_local hl']
  | none =>
    cases hl' : (f.after (ss.take o'.seen)).scope.locals[o.token.lexeme]? with
    | none =>
      refine .inl ?_
      have hsymbols : (f.after (ss.take o'.seen)).scope.symbols =
          (f.after (ss.take o.seen)).scope.symbols := by
        rw [symbols_after, symbols_after]
      rw [referent?, referent?, ← hx, Scope.referent?_congr hsymbols hl hl']
    | some l =>
      obtain ⟨site, rfl⟩ := Scope.global_of_referent? hl hd
      have hnew := hl'
      rw [hafter] at hnew
      obtain ⟨k, s, hk, hv⟩ := declared_of_after hl hnew
      rw [List.getElem?_drop, List.getElem?_take] at hk
      by_cases hlt : o.seen + k < o'.seen
      · rw [if_pos hlt] at hk
        refine .inr ⟨o.token.lexeme, site, l.site, hd, ?_, o.seen + k, s, by omega, hlt, hk, hv⟩
        rw [referent?, ← hx, Scope.referent?_of_local hl']
      · rw [if_neg hlt] at hk
        cases hk

/-- Names are written alike exactly when they stand for one variable, or for a global and a local
that takes its name in between. -/
theorem operand_eq_iff (h : ∃ d, f.referent? ss o = some d) (h' : ∃ d, f.referent? ss o' = some d) :
    o.operand = o'.operand ↔
      f.referent? ss o = f.referent? ss o' ∨ f.Shadowed ss o o' ∨ f.Shadowed ss o' o := by
  constructor
  · intro hx
    by_cases hle : o.seen ≤ o'.seen
    · rcases referent?_of_operand_eq hle hx h with hsame | hshadow
      · exact .inl hsame
      · exact .inr (.inl hshadow)
    · rcases referent?_of_operand_eq (by omega) hx.symm h' with hsame | hshadow
      · exact .inl hsame.symm
      · exact .inr (.inr hshadow)
  · rintro (hsame | hshadow | hshadow)
    · obtain ⟨d, hd⟩ := h
      exact operand_eq_of_referent? hd (hsame ▸ hd) rfl
    · exact hshadow.operand_eq
    · exact hshadow.operand_eq.symm

end Frame

namespace Scope

variable {c : Scope}

theorem referent?_of_target {u : Token} (h : (c.target u).2 = []) :
    ∃ d, c.referent? u.lexeme = some d := by
  rw [← nameType_ok_iff]
  unfold target at h
  cases hn : c.nameType u.lexeme with
  | ok ty => exact ⟨ty, rfl⟩
  | error s =>
    rw [hn] at h
    cases s <;> cases h

theorem referent?_of_value {u : Token} (h : (c.value u).2 = []) (hk : u.kind = .ident) :
    ∃ d, c.referent? u.lexeme = some d := by
  rw [← nameType_ok_iff]
  unfold value at h
  rw [if_pos hk] at h
  cases hn : c.nameType u.lexeme with
  | ok ty => exact ⟨ty, rfl⟩
  | error s =>
    rw [hn] at h
    cases s <;> cases h

theorem value_of_call {callee : Token} {args : List Token} (h : (c.call callee args).2 = []) :
    ∀ u ∈ args, (c.value u).2 = [] := by
  have hargs : (args.map c.value).flatMap (·.2) = [] := by
    unfold call at h
    cases hf : c.function? callee with
    | error d =>
      rw [hf] at h
      exact (List.append_eq_nil_iff.mp h).1
    | ok s =>
      rw [hf] at h
      exact (List.append_eq_nil_iff.mp h).1
  intro u hu
  exact List.flatMap_eq_nil_iff.mp hargs _ (List.mem_map_of_mem hu)

theorem value_of_infer {e : Expr} (h : (c.infer e).2 = []) : ∀ u ∈ e.values, (c.value u).2 = [] := by
  induction e with
  | literal t => exact List.forall_mem_singleton.mpr h
  | name t => exact List.forall_mem_singleton.mpr h
  | call callee args => exact value_of_call h
  | binary op t lhs rhs hl hr =>
    have hparts : (c.infer lhs).2 ++ (c.infer rhs).2 = [] := by
      simp only [infer] at h
      split at h
      · split at h
        · exact h
        · exact (List.append_eq_nil_iff.mp h).1
      · exact h
    obtain ⟨hleft, hright⟩ := List.append_eq_nil_iff.mp hparts
    exact List.forall_mem_append.mpr ⟨hl hleft, hr hright⟩

end Scope

namespace Frame

variable {f : Frame}

/-- In front of a statement without faults, what it uses is in scope. -/
theorem referent?_of_uses {s : Stmt} (h : (f.statement s).2.1 = []) :
    ∀ u ∈ s.uses, ∃ d, f.scope.referent? u.lexeme = some d := by
  have hvalues : ∀ u ∈ s.values, (f.scope.value u).2 = [] := by
    cases s with
    | «local» name type init =>
      cases init with
      | none => exact List.forall_mem_nil _
      | some e =>
        simp only [statement, Scope.examine_eq_infer, List.append_eq_nil_iff] at h
        exact Scope.value_of_infer h.1.2.1
    | assign target e =>
      simp only [statement, Scope.examine_eq_infer, List.append_eq_nil_iff] at h
      exact Scope.value_of_infer h.1.2
    | call callee args => exact Scope.value_of_call h
    | ret keyword e =>
      simp only [statement, Scope.examine_eq_infer, List.append_eq_nil_iff] at h
      exact Scope.value_of_infer h.1
  have htargets : ∀ u ∈ s.targets, (f.scope.target u).2 = [] := by
    cases s with
    | assign target e =>
      simp only [statement, List.append_eq_nil_iff] at h
      exact List.forall_mem_singleton.mpr h.1.1
    | _ => exact List.forall_mem_nil _
  intro u hu
  rcases List.mem_append.mp hu with hu | hu
  · exact Scope.referent?_of_target (htargets u hu)
  · obtain ⟨hu, hk⟩ := List.mem_filter.mp hu
    exact Scope.referent?_of_value (hvalues u hu) (of_decide_eq_true hk)

/-- Behind a statement, what it declares is in scope. -/
theorem referent?_of_declared {s : Stmt} :
    ∀ v ∈ s.declared, ∃ d, (f.statement s).1.scope.referent? v.1.lexeme = some d := by
  intro v hv
  cases s with
  | «local» name type init =>
    obtain rfl := List.mem_singleton.mp hv
    simp only [statement, declare]
    cases hn : f.scope.locals[name.lexeme]? with
    | some first => exact ⟨_, Scope.referent?_of_local hn⟩
    | none => exact ⟨_, Scope.referent?_of_local Std.TreeMap.getElem?_insert_self⟩
  | _ => cases hv

theorem statements_eq_nil_iff {ss : List Stmt} : (f.statements ss).1 = [] ↔
    ∀ (i : Nat) (s : Stmt), ss[i]? = some s → ((f.after (ss.take i)).statement s).2.1 = [] := by
  induction ss generalizing f with
  | nil => simp [statements]
  | cons s ss ih =>
    simp only [statements, List.append_eq_nil_iff, ih]
    constructor
    · rintro ⟨hs, hss⟩ i s' hi
      cases i with
      | zero =>
        cases hi
        exact hs
      | succ i => exact hss i s' hi
    · intro h
      exact ⟨h 0 s rfl, fun i s' hi => h (i + 1) s' hi⟩

theorem exists_referent? {ss : List Stmt} (h : (f.statements ss).1 = []) :
    ∀ o ∈ occurrences ss, ∃ d, f.referent? ss o = some d := by
  intro o ho
  obtain ⟨⟨s, i⟩, hs, ho⟩ := List.mem_flatMap.mp ho
  have hi : ss[i]? = some s := List.mem_zipIdx_iff_getElem?.mp hs
  rcases List.mem_append.mp ho with ho | ho
  · obtain ⟨v, hv, rfl⟩ := List.mem_map.mp ho
    have htake : ss.take (i + 1) = ss.take i ++ [s] := by
      rw [List.take_add_one, hi]
      rfl
    have hbehind : f.after (ss.take (i + 1)) = ((f.after (ss.take i)).statement s).1 := by
      rw [htake, after_append]
      rfl
    obtain ⟨d, hd⟩ := referent?_of_declared (f := f.after (ss.take i)) v hv
    rw [← hbehind] at hd
    exact ⟨d, hd⟩
  · obtain ⟨u, hu, rfl⟩ := List.mem_map.mp ho
    exact referent?_of_uses (statements_eq_nil_iff.mp h i s hi) u hu

end Frame

def Operand.isName : Operand → Bool
  | .name _ => true
  | _ => false

theorem Operand.isName_of_ofLiteral? {u : Token} {a : Operand} (h : ofLiteral? u = some a) :
    a.isName = false := by
  unfold ofLiteral? at h
  split at h
  · cases h
    rfl
  · cases h
    rfl
  · split at h
    · cases h
      rfl
    · obtain ⟨v, -, rfl⟩ := Option.map_eq_some_iff.mp h
      rfl
  · cases h

theorem Operand.isName_zero (ty : Ty) : (zero ty).isName = false := by
  cases ty <;> rfl

/-- The variables that an instruction writes or reads. The first operand of a call is a function. -/
def Instruction.variables (x : Instruction) : List Operand :=
  match x.op with
  | .func | .endFunc => []
  | .call => x.result.toList.filter Operand.isName
  | _ => (x.result.toList ++ x.arg1.toList ++ x.arg2.toList).filter Operand.isName

namespace Code

variable {symbols : SymbolTable}

/-- The variables among tokens that are read as values. -/
def names (us : List Token) : List Operand := (us.filter (·.kind = .ident)).map .ofToken

theorem names_append (us us' : List Token) : names (us ++ us') = names us ++ names us' := by
  simp [names]

theorem filter_value {u : Token} {a : Operand} (h : value u = .ok a) :
    [a].filter Operand.isName = names [u] := by
  unfold value at h
  by_cases hk : u.kind = .ident
  · rw [if_pos hk] at h
    cases h
    simp [names, hk, Operand.isName, Operand.ofToken]
  · rw [if_neg hk] at h
    cases hl : Operand.ofLiteral? u with
    | none =>
      rw [hl] at h
      cases h
    | some b =>
      rw [hl] at h
      cases h
      simp [names, hk, Operand.isName_of_ofLiteral? hl]

theorem variables_params {args : List Token} {ps : List Instruction}
    (h : List.Forall₂ (fun t x => ∃ a, value t = .ok a ∧ Instruction.param a = x) args ps) :
    ps.flatMap Instruction.variables = names args := by
  induction h with
  | nil => rfl
  | @cons u x args ps hx _ ih =>
    obtain ⟨a, ha, rfl⟩ := hx
    rw [List.flatMap_cons, ih, ← List.singleton_append, names_append, ← filter_value ha]
    rfl

theorem variables_call {dest : Option Operand} {callee : Token} {args : List Token}
    {code : List Instruction} (h : call dest callee args = .ok code) :
    (code.flatMap Instruction.variables).Perm
      (dest.toList.filter Operand.isName ++ names args) := by
  obtain ⟨ps, hps, rfl⟩ := call_eq_ok h
  rw [List.flatMap_append, variables_params hps, List.flatMap_singleton]
  exact List.perm_append_comm

/-- The code of an expression writes the destination and the variables of the expression. -/
def Writes (e : Expr) : Prop :=
  ∀ {dest : Operand} {temps n : Nat} {code : List Instruction},
    into e dest temps = .ok (code, n) →
      (code.flatMap Instruction.variables).Perm
        ([dest].filter Operand.isName ++ names e.values)

theorem variables_spill {e : Expr} {temps n : Nat} {a : Operand} {code : List Instruction}
    (he : Writes e) (h : spill e temps (into e) = .ok (a, code, n)) :
    (code.flatMap Instruction.variables ++ [a].filter Operand.isName).Perm (names e.values) := by
  rcases spill_eq_ok h with ⟨u, hu, ha, rfl, -⟩ | ⟨rfl, hinto⟩
  · rw [filter_value ha]
    rcases hu with rfl | rfl <;> exact .refl _
  · have hperm := he hinto
    simpa [Operand.isName] using hperm

theorem variables_copy (dest a : Operand) :
    [Instruction.copy dest a].flatMap Instruction.variables =
      [dest].filter Operand.isName ++ [a].filter Operand.isName := by
  rw [← List.filter_append, List.flatMap_singleton]
  rfl

theorem writes_value {e : Expr} {u : Token} (he : e = .literal u ∨ e = .name u) : Writes e := by
  intro dest temps n code h
  have hcopy : (value u).map (fun a => ([Instruction.copy dest a], temps)) = .ok (code, n) := by
    rcases he with rfl | rfl <;> exact h
  have hvalues : e.values = [u] := by
    rcases he with rfl | rfl <;> rfl
  obtain ⟨a, ha, h⟩ := map_eq_ok.mp hcopy
  cases h
  rw [variables_copy, filter_value ha, hvalues]

theorem writes (e : Expr) : Writes e := by
  induction e with
  | literal u => exact writes_value (.inl rfl)
  | name u => exact writes_value (.inr rfl)
  | call callee args =>
    intro dest temps n code h
    obtain ⟨c, hc, h⟩ := map_eq_ok.mp h
    cases h
    exact variables_call hc
  | binary op t lhs rhs hl hr =>
    intro dest temps n code h
    obtain ⟨l, left, k, r, right, hleft, hright, rfl⟩ := into_binary_eq_ok h
    have hlast : Instruction.variables (.binary op dest l r) =
        [dest].filter Operand.isName ++ [l].filter Operand.isName ++ [r].filter Operand.isName := by
      rw [← List.filter_append, ← List.filter_append]
      rfl
    have hvl := List.perm_iff_count.mp (variables_spill hl hleft)
    have hvr := List.perm_iff_count.mp (variables_spill hr hright)
    rw [List.flatMap_append, List.flatMap_append, List.flatMap_singleton, hlast, Expr.values,
      names_append, List.perm_iff_count]
    intro a
    have hla := hvl a
    have hra := hvr a
    simp only [List.count_append] at hla hra ⊢
    omega

/-- The code of a statement writes the variables of the statement, each as often as it occurs. -/
theorem variables_statement {func : Token} {s : Stmt} {temps n : Nat} {code : List Instruction}
    (h : statement symbols func s temps = .ok (code, n)) (i : Nat) :
    (code.flatMap Instruction.variables).Perm ((s.occurrences i).map Occurrence.operand) := by
  have hoccurs : (s.occurrences i).map Occurrence.operand =
      (s.declared.map (·.1) ++ s.targets).map .ofToken ++ names s.values := by
    simp [Stmt.occurrences, Stmt.uses, names, Occurrence.operand, Function.comp_def]
  rw [hoccurs]
  cases s with
  | «local» name type init =>
    cases init with
    | none =>
      obtain ⟨v, hz, h⟩ := bind_eq_ok.mp h
      cases h
      have hv : v.isName = false := by
        unfold zero at hz
        split at hz
        · cases hz
          exact Operand.isName_zero _
        · cases hz
      have hnone : [v].filter Operand.isName = [] := by simp [hv]
      rw [variables_copy, hnone]
      exact .refl _
    | some e =>
      rw [statement, store_eq_into] at h
      exact writes e h
  | assign target e =>
    rw [statement, store_eq_into] at h
    exact writes e h
  | call callee args =>
    obtain ⟨c, hc, h⟩ := bind_eq_ok.mp h
    cases h
    exact variables_call hc
  | ret keyword e =>
    obtain ⟨⟨a, c, k⟩, hc, h⟩ := bind_eq_ok.mp h
    cases h
    rw [operand_eq_spill] at hc
    rw [List.flatMap_append]
    have hlast : [Instruction.ret a].flatMap Instruction.variables = [a].filter Operand.isName := by
      rw [List.flatMap_singleton]
      rfl
    rw [hlast]
    exact variables_spill (writes e) hc

/-- The code of statements, one piece for each, that writes the variables of the statement. -/
theorem variables_statements {func : Token} {ss : List Stmt} {temps : Nat}
    {code : List Instruction} (h : statements symbols func ss temps = .ok code) (i : Nat) :
    ∃ codes, code = codes.flatten ∧
      List.Forall₂ (fun x c =>
        (c.flatMap Instruction.variables).Perm ((x.1.occurrences x.2).map Occurrence.operand))
        (ss.zipIdx i) codes := by
  induction ss generalizing temps code i with
  | nil =>
    cases h
    exact ⟨[], rfl, .nil⟩
  | cons s ss ih =>
    rw [statements] at h
    obtain ⟨⟨made, n⟩, hs, h⟩ := bind_eq_ok.mp h
    obtain ⟨more, hss, h⟩ := bind_eq_ok.mp h
    cases h
    obtain ⟨codes, rfl, hcodes⟩ := ih hss (i + 1)
    exact ⟨made :: codes, rfl, .cons (variables_statement hs i) hcodes⟩

end Code

/-- A function of a parsed file is one of its program. -/
theorem Tree.FromSource.exists_routine {t : Tree} (h : t.FromSource) {p : Program}
    (hp : t.program = .ok p) {g : Function} (hg : g ∈ t.functions) :
    ∃ r, g.routine = .ok r ∧ .routine r ∈ p := by
  obtain ⟨b, hb⟩ := ReadFile.exists_readFiles (List.forall_mem_singleton (a := (0, t)).mpr h)
  obtain ⟨f, rfl, hf⟩ := List.map_eq_singleton_iff.mp hb
  obtain rfl : f.tree = t := congrArg Prod.snd hf
  obtain rfl := Except.ok.inj (f.read.symm.trans hp)
  obtain ⟨r, hr, hgr⟩ := exists_of_mem_left f.functions_read hg
  exact ⟨r, hgr, Decl.mem_filterMap_routine?.mp hr⟩

namespace Analysis

variable {outcomes : List (Option Tree)}

/-- In a valid batch no function has a fault. -/
theorem check_of_valid (hv : (ofOutcomes outcomes).valid = true) {t : Tree}
    (ht : some t ∈ outcomes) {g : Function} (hg : g ∈ t.functions) :
    (g.check (headers (parsedFiles outcomes))).1 = [] := by
  have hfaults : (ofFiles (parsedFiles outcomes)).faults = [] := (valid_iff_no_faults _).mp hv
  obtain ⟨i, hi⟩ : ∃ i, (i, t) ∈ parsedFiles outcomes := by
    have hmem : t ∈ (parsedFiles outcomes).map (·.2) := by
      rw [map_parsedFiles]
      exact List.reduceOption_mem_iff.mpr ht
    obtain ⟨⟨i, t'⟩, hi, rfl⟩ := List.mem_map.mp hmem
    exact ⟨i, hi⟩
  obtain ⟨-, hbodies⟩ := List.append_eq_nil_iff.mp hfaults
  have hfile := List.flatMap_eq_nil_iff.mp hbodies _ (List.mem_map_of_mem hi)
  have hall := List.flatMap_eq_nil_iff.mp (List.map_eq_nil_iff.mp hfile)
  exact hall _ (List.mem_map_of_mem hg)

/-- In a valid batch a function reads as statements, and its code in the file is that of its
parameters and of its statements. -/
theorem code_of_function (h : ∀ t, some t ∈ outcomes → t.FromSource)
    (hv : (ofOutcomes outcomes).valid = true) {t : Tree} (ht : some t ∈ outcomes) {g : Function}
    (hg : g ∈ t.functions) :
    ∃ ss code body, g.body.mapM Stmt.ofNode = .ok ss ∧
      t.emit Phase.table (ofOutcomes outcomes).symbols = .ok code ∧
      Code.statements (ofOutcomes outcomes).symbols g.name ss 0 = .ok body ∧
      Code.between g.name.lexeme code =
        g.params.map (fun q => Instruction.paramIn (.ofToken q.name)) ++ body := by
  obtain ⟨ps, -, hwf, hw, hserves, hphrase⟩ := program_of_valid h hv
  obtain ⟨f, hitems, hsub⟩ := hphrase t ht
  obtain ⟨codes, hcodes⟩ := mapM_ok fun d hd =>
    Code.decl_ok hserves (hsub hd) (hwf.usable hw (hsub hd))
  have hemit : t.emit Phase.table (ofOutcomes outcomes).symbols = .ok codes.flatten := by
    rw [Tree.emit_eq _ hitems, hcodes]
    rfl
  obtain ⟨r, hgr, hr⟩ := (h t ht).exists_routine (Phrase.File.program_of_items hitems) hg
  obtain ⟨hname, hparams, -, hbody⟩ := Function.routine_eq_ok hgr
  have hone : ∀ d ∈ f.program, d.name.lexeme = r.name.lexeme → d = .routine r := by
    intro d hd hn
    exact hwf.decl_unique (hsub hd) (hsub hr) hn
  obtain ⟨body, hstatements, hbetween⟩ := Code.between_flatten (forall₂_of_mapM hcodes) hr hone
  rw [hname] at hstatements hbetween
  rw [hparams] at hbetween
  exact ⟨r.body, codes.flatten, body, hbody, hemit, hstatements, hbetween⟩

end Analysis

/-- In a valid batch, let variables occur in the statements of a function. The code of each
statement writes them by their names, and nothing else. Every one is resolved. Two have one name in
the code exactly when they are resolved to the same declaration, or to a global and to a local that
is declared between the two and has the name of the global. -/
theorem shared_names_are_shadowed (outcomes : List (Option Tree))
    (h : ∀ t, some t ∈ outcomes → t.FromSource)
    (hv : (Analysis.ofOutcomes outcomes).valid = true) (t : Tree) (ht : some t ∈ outcomes)
    (g : Function) (hg : g ∈ t.functions) :
    let f := g.opening (Analysis.headers (parsedFiles outcomes))
    ∃ ss code codes, g.body.mapM Stmt.ofNode = .ok ss ∧
      t.emit Phase.table (Analysis.ofOutcomes outcomes).symbols = .ok code ∧
      Code.between g.name.lexeme code =
        g.params.map (fun q => .paramIn (.ofToken q.name)) ++ codes.flatten ∧
      List.Forall₂ (fun x c =>
        (c.flatMap Instruction.variables).Perm ((x.1.occurrences x.2).map Occurrence.operand))
        ss.zipIdx codes ∧
      (∀ o ∈ occurrences ss, ∃ d, f.referent? ss o = some d) ∧
      ∀ o ∈ occurrences ss, ∀ o' ∈ occurrences ss,
        (o.operand = o'.operand ↔
          f.referent? ss o = f.referent? ss o' ∨ f.Shadowed ss o o' ∨ f.Shadowed ss o' o) := by
  intro f
  obtain ⟨ss, code, body, hss, hcode, hstatements, hbetween⟩ :=
    Analysis.code_of_function h hv ht hg
  obtain ⟨codes, rfl, hcodes⟩ := Code.variables_statements hstatements 0
  have hcheck := Analysis.check_of_valid hv ht hg
  rw [Function.check_eq_body, Frame.body_eq_statements _ hss] at hcheck
  have hall := Frame.exists_referent? hcheck
  refine ⟨ss, code, codes, hss, hcode, hbetween, hcodes, hall, ?_⟩
  intro o ho o' ho'
  exact Frame.operand_eq_iff (hall o ho) (hall o' ho')

/-- What the variables of a file's first function are written as, and what they stand for. -/
def Tree.resolutions? (t : Tree) : Option (List (Operand × Option Referent)) :=
  t.functions.head?.bind fun g =>
    (g.body.mapM Stmt.ofNode).toOption.map fun ss =>
      (occurrences ss).map fun o =>
        (o.operand, (g.opening (Analysis.headers (parsedFiles [some t]))).referent? ss o)

theorem Tree.exists_of_resolutions? {t : Tree} {xs : List (Operand × Option Referent)}
    (h : t.resolutions? = some xs) :
    ∃ g ∈ t.functions, ∃ ss, g.body.mapM Stmt.ofNode = .ok ss ∧
      ∀ x ∈ xs, ∃ o ∈ occurrences ss, o.operand = x.1 ∧
        (g.opening (Analysis.headers (parsedFiles [some t]))).referent? ss o = x.2 := by
  obtain ⟨g, hg, h⟩ := Option.bind_eq_some_iff.mp h
  obtain ⟨ss, hss, rfl⟩ := Option.map_eq_some_iff.mp h
  refine ⟨g, List.mem_of_mem_head? hg, ss, toOption_eq_some.mp hss, ?_⟩
  intro x hx
  obtain ⟨o, ho, rfl⟩ := List.mem_map.mp hx
  exact ⟨o, ho, rfl, rfl⟩

/-- A local and the global that it is given the value of are two variables with one name. -/
theorem local_shares_name_of_its_global :
    ∃ t g ss o o', Tree.ofText? "a" "var g: int = 1; func f(): int { var g: int = g; return g; }" =
        some t ∧
      (Analysis.ofOutcomes [some t]).valid = true ∧ g ∈ t.functions ∧
      g.body.mapM Stmt.ofNode = .ok ss ∧ o ∈ occurrences ss ∧ o' ∈ occurrences ss ∧
      o.operand = o'.operand ∧
      (g.opening (Analysis.headers (parsedFiles [some t]))).referent? ss o =
        some (.local "g" ⟨"a", 1, 37⟩) ∧
      (g.opening (Analysis.headers (parsedFiles [some t]))).referent? ss o' =
        some (.global "g" ⟨"a", 1, 5⟩) := by
  have hrun : ((Tree.ofText? "a" "var g: int = 1; func f(): int { var g: int = g; return g; }").bind
      fun t => t.resolutions?.map fun xs => ((Analysis.ofOutcomes [some t]).valid, xs)) =
        some (true, [(.name "g", some (.local "g" ⟨"a", 1, 37⟩)),
          (.name "g", some (.global "g" ⟨"a", 1, 5⟩)),
          (.name "g", some (.local "g" ⟨"a", 1, 37⟩))]) := by
    rw [Tree.ofText?_ofList]
    decide +kernel
  obtain ⟨t, ht, hrun⟩ := Option.bind_eq_some_iff.mp hrun
  obtain ⟨xs, hxs, hrun⟩ := Option.map_eq_some_iff.mp hrun
  obtain ⟨hvalid, rfl⟩ := Prod.mk.inj hrun
  obtain ⟨g, hg, ss, hss, hall⟩ := Tree.exists_of_resolutions? hxs
  obtain ⟨o, ho, hname, hlocal⟩ := hall (.name "g", some (.local "g" ⟨"a", 1, 37⟩)) (by simp)
  obtain ⟨o', ho', hname', hglobal⟩ := hall (.name "g", some (.global "g" ⟨"a", 1, 5⟩)) (by simp)
  exact ⟨t, g, ss, o, o', ht, hvalid, hg, hss, ho, ho', hname.trans hname'.symm, hlocal, hglobal⟩

/-- A parameter takes the value of a global, and then a local takes the name of the global. -/
theorem shared_names_are_shadowed_parameter_between :
    ∃ t g ss o o',
      Tree.ofText? "a" "var g: int = 1; func f(p: int): int { p = g; var g: int = p; return g; }" =
        some t ∧
      (Analysis.ofOutcomes [some t]).valid = true ∧ g ∈ t.functions ∧
      g.body.mapM Stmt.ofNode = .ok ss ∧ o ∈ occurrences ss ∧ o' ∈ occurrences ss ∧
      o.operand = o'.operand ∧
      (g.opening (Analysis.headers (parsedFiles [some t]))).Shadowed ss o o' := by
  have hrun : ((Tree.ofText? "a"
      "var g: int = 1; func f(p: int): int { p = g; var g: int = p; return g; }").bind
      fun t => t.resolutions?.map fun xs => ((Analysis.ofOutcomes [some t]).valid, xs)) =
        some (true, [(.name "p", some (.local "p" ⟨"a", 1, 24⟩)),
          (.name "g", some (.global "g" ⟨"a", 1, 5⟩)),
          (.name "g", some (.local "g" ⟨"a", 1, 50⟩)),
          (.name "p", some (.local "p" ⟨"a", 1, 24⟩)),
          (.name "g", some (.local "g" ⟨"a", 1, 50⟩))]) := by
    rw [Tree.ofText?_ofList]
    decide +kernel
  obtain ⟨t, ht, hrun⟩ := Option.bind_eq_some_iff.mp hrun
  obtain ⟨xs, hxs, hrun⟩ := Option.map_eq_some_iff.mp hrun
  obtain ⟨hvalid, rfl⟩ := Prod.mk.inj hrun
  obtain ⟨g, hg, ss, hss, hall⟩ := Tree.exists_of_resolutions? hxs
  obtain ⟨o, ho, hname, hglobal⟩ := hall (.name "g", some (.global "g" ⟨"a", 1, 5⟩)) (by simp)
  obtain ⟨o', ho', hname', hlocal⟩ := hall (.name "g", some (.local "g" ⟨"a", 1, 50⟩)) (by simp)
  have hsource : ∀ t', some t' ∈ [some t] → t'.FromSource := by
    intro t' ht'
    obtain rfl := Option.some.inj (List.mem_singleton.mp ht')
    exact Tree.fromSource_of_ofText? ht
  obtain ⟨ss', code, codes, hss', -, -, -, -, hiff⟩ :=
    shared_names_are_shadowed [some t] hsource hvalid t List.mem_cons_self g hg
  obtain rfl := Except.ok.inj (hss.symm.trans hss')
  have hsame := hname.trans hname'.symm
  refine ⟨t, g, ss, o, o', ht, hvalid, hg, hss, ho, ho', hsame, ?_⟩
  rcases (hiff o ho o' ho').mp hsame with heq | hshadowed | ⟨x, site, site', hswapped, -⟩
  · rw [hglobal, hlocal] at heq
    cases heq
  · exact hshadowed
  · rw [hlocal] at hswapped
    cases hswapped

end ThreeAddress
