import Mathlib.Data.List.Nodup
import ThreeAddress.Proofs.Reading
import ThreeAddress.Proofs.SampleText

namespace ThreeAddress

namespace Program

/-- What a well-formed program asks of a declaration, apart from its name. -/
structure Sound (p : Program) (d : Decl) : Prop where
  bindings : ∀ r, d = .routine r → (r.bindings.map (·.1.lexeme)).Nodup
  types : ∀ t ∈ d.types, ∃ ty, p.Denotes t ty
  literals : ∀ t ∈ d.values, t.InRange
  inits : ∀ name type init, d = .global name type (some init) →
    ∃ ty, p.Denotes type ty ∧ Ty.ofLiteral? init = some ty
  bodies : ∀ r, d = .routine r → ∃ Γ, p.Opens r.params Γ ∧ p.BodyFits r.ret Γ r.body

theorem WellFormed.of_sound {p : Program} (hn : (p.map (·.name.lexeme)).Nodup)
    (h : ∀ d ∈ p, p.Sound d) : p.WellFormed where
  names := hn
  bindings r hr := (h _ hr).bindings r rfl
  types d hd := (h d hd).types
  literals d hd := (h d hd).literals
  inits name type init hd := (h _ hd).inits name type init rfl
  bodies r hr := (h _ hr).bodies r rfl

section
variable {p : Program}

theorem Sound.alias {name target : Token} {ty : Ty} (h : p.Denotes target ty) :
    p.Sound (.alias name target) where
  bindings _ heq := by cases heq
  types := List.forall_mem_singleton.mpr ⟨ty, h⟩
  literals := List.forall_mem_nil _
  inits _ _ _ heq := by cases heq
  bodies _ heq := by cases heq

theorem Sound.global {name type : Token} {init : Option Token} {ty : Ty} (h : p.Denotes type ty)
    (hinit : ∀ t ∈ init, t.InRange ∧ Ty.ofLiteral? t = some ty) :
    p.Sound (.global name type init) where
  bindings _ heq := by cases heq
  types := List.forall_mem_singleton.mpr ⟨ty, h⟩
  literals t ht := (hinit t (Option.mem_toList.mp ht)).1
  inits name' type' init' heq := by
    obtain ⟨-, rfl, rfl⟩ := Decl.global.inj heq
    exact ⟨ty, h, (hinit init' rfl).2⟩
  bodies _ heq := by cases heq

theorem Sound.routine {r : Routine} (hnames : (r.bindings.map (·.1.lexeme)).Nodup)
    (htypes : ∀ t ∈ r.ret :: r.bindings.map (·.2), ∃ ty, p.Denotes t ty)
    (hliterals : ∀ t ∈ r.body.flatMap Stmt.values, t.InRange) {Γ : Locals}
    (hopens : p.Opens r.params Γ) (hbody : p.BodyFits r.ret Γ r.body) :
    p.Sound (.routine r) where
  bindings r' heq := by
    obtain rfl := Decl.routine.inj heq
    exact hnames
  types := htypes
  literals := hliterals
  inits _ _ _ heq := by cases heq
  bodies r' heq := by
    obtain rfl := Decl.routine.inj heq
    exact ⟨Γ, hopens, hbody⟩

end

theorem lookup_of_mem {l : List String} {x : String} (h : x ∈ l) (ty : Ty) :
    (l.map (·, ty)).lookup x = some ty := by
  induction l with
  | nil => cases h
  | cons y l ih =>
    rw [List.map_cons, List.lookup_cons]
    cases hxy : x == y with
    | true => rfl
    | false => exact ih ((List.mem_cons.mp h).resolve_left (beq_eq_false_iff_ne.mp hxy))

theorem lookup_of_not_mem {l : List String} {x : String} (h : x ∉ l) (ty : Ty) :
    (l.map (·, ty)).lookup x = none := by
  rw [List.lookup_eq_none_iff, List.forall_mem_map]
  intro y hy
  rw [bne_iff_ne]
  rintro rfl
  exact h hy

end Program

namespace Sample

open Phrase Program

section
variable {mark mark' : String} {letter letter' : Char} {n n' : Nat}

theorem digits_nameText (hl : letter.isDigit = false) :
    (nameText mark letter n).reverse.takeWhile Char.isDigit = (Nat.toDigits 10 n).reverse := by
  have hdigits : ∀ c ∈ (Nat.toDigits 10 n).reverse, c.isDigit = true := fun c hc =>
    Numeral.isDigit_of_mem (by decide) (by decide) c (List.mem_reverse.mp hc)
  have hletter : ¬letter.isDigit = true := by simp [hl]
  rw [nameText, List.reverse_append, List.reverse_cons, List.append_assoc,
    List.takeWhile_append_of_pos hdigits, List.singleton_append,
    List.takeWhile_cons_of_neg hletter, List.append_nil]

/-- A name can be taken apart from behind. -/
theorem nameText_inj (hl : letter.isDigit = false) (hl' : letter'.isDigit = false)
    (h : nameText mark letter n = nameText mark' letter' n') :
    mark = mark' ∧ letter = letter' ∧ n = n' := by
  have hdigits : Nat.toDigits 10 n = Nat.toDigits 10 n' := by
    rw [← List.reverse_inj, ← digits_nameText hl, ← digits_nameText hl', h]
  have hn : n = n' := by
    have hvalue (n : Nat) := Numeral.digitsValue_toDigits (b := 10) (by decide) (by decide) n
    rw [← Option.some_inj, ← hvalue n, ← hvalue n', hdigits]
  have hfront : mark.toList ++ [letter] = mark'.toList ++ [letter'] := by
    have hsplit (mark : String) (letter : Char) (n : Nat) :
        nameText mark letter n = mark.toList ++ [letter] ++ Nat.toDigits 10 n := by
      simp [nameText]
    rw [hsplit, hsplit, hdigits] at h
    exact List.append_cancel_right h
  obtain ⟨hmark, hletter⟩ := List.append_inj' hfront rfl
  exact ⟨String.toList_inj.mp hmark, List.singleton_inj.mp hletter, hn⟩

theorem lexeme_inj (hl : letter.isDigit = false) (hl' : letter'.isDigit = false)
    (h : (nameToken mark letter n).1.lexeme = (nameToken mark' letter' n').1.lexeme) :
    mark = mark' ∧ letter = letter' ∧ n = n' :=
  nameText_inj hl hl' (String.ofList_inj.mp h)

end

/-- The names of parameters and locals in scope. -/
def Context.variables (c : Context) : List String :=
  (List.range c.params).map (fun i => (nameToken "" 'p' i).1.lexeme) ++
    (List.range c.locals).map (fun i => (nameToken "" 'v' i).1.lexeme)

def Context.scope (c : Context) : Locals := c.variables.map (·, .int)

theorem Context.nodup_variables (c : Context) : c.variables.Nodup := by
  have hinj (letter : Char) (hl : letter.isDigit = false) (k : Nat) :
      ((List.range k).map fun i => (nameToken "" letter i).1.lexeme).Nodup :=
    List.Nodup.map (fun i j hij => (lexeme_inj hl hl hij).2.2) List.nodup_range
  refine List.Nodup.append (hinj 'p' (by decide) _) (hinj 'v' (by decide) _) ?_
  intro x hx hx'
  obtain ⟨i, -, rfl⟩ := List.mem_map.mp hx
  obtain ⟨j, -, hij⟩ := List.mem_map.mp hx'
  exact absurd (lexeme_inj (by decide) (by decide) hij).2.1 (by decide)

/-- Neither globals nor functions have the name of a parameter or a local. -/
theorem Context.not_mem_variables (c : Context) (mark : String) {letter : Char} (n : Nat)
    (hl : letter = 'g' ∨ letter = 'f') : (nameToken mark letter n).1.lexeme ∉ c.variables := by
  have hdigit : letter.isDigit = false := by rcases hl with rfl | rfl <;> decide
  have hne (letter' : Char) (k : Nat) (hdigit' : letter'.isDigit = false) (h : letter ≠ letter') :
      (nameToken mark letter n).1.lexeme ∉
        (List.range k).map fun i => (nameToken "" letter' i).1.lexeme := by
    intro hmem
    obtain ⟨i, -, hi⟩ := List.mem_map.mp hmem
    exact h (lexeme_inj hdigit hdigit' hi.symm).2.1
  rw [Context.variables, List.mem_append, not_or]
  exact ⟨hne 'p' _ (by decide) (by rcases hl with rfl | rfl <;> decide),
    hne 'v' _ (by decide) (by rcases hl with rfl | rfl <;> decide)⟩

/-- A program declares what has names, as integers and functions on integers. -/
structure Offers (p : Program) (mark : String) (names : Names) : Prop where
  aliases : ∀ i < names.aliases, p.Denotes (nameToken mark 't' i).1 .int
  globals : ∀ i < names.globals, ∃ type init,
    .global (nameToken mark 'g' i).1 type init ∈ p ∧ p.Denotes type .int
  functions : ∀ i arity, names.functions[i]? = some arity → ∃ r, .routine r ∈ p ∧
    r.name = (nameToken mark 'f' i).1 ∧ r.params.length = arity ∧
      (∀ q ∈ r.params, p.Denotes q.type .int) ∧ p.Denotes r.ret .int

section
variable {p : Program} {mark : String} {names : Names}

theorem IntType.denotes {t : IntType} (h : Offers p mark names) (ht : t.Known names.aliases) :
    p.Denotes (t.token mark).1 .int := by
  cases t with
  | int => exact .builtin rfl
  | «alias» n => exact h.aliases n ht

theorem Number.inRange {n : Number} (h : n.Small) : n.token.1.InRange := by
  obtain ⟨v, hv, hwrites⟩ := Number.writes h
  have hrange := hwrites.inRange hv
  rwa [String.ofList_toList] at hrange

theorem Number.ofLiteral? {n : Number} (h : n.Small) : Ty.ofLiteral? n.token.1 = some .int := by
  obtain ⟨v, hv, hwrites⟩ := Number.writes h
  have hliteral := hwrites.ofLiteral?
  rwa [String.ofList_toList] at hliteral

theorem inRange_of_ident {t : Token} (h : t.kind = .ident) : t.InRange := by
  intro hk
  cases h.symm.trans hk

section
variable {c : Context} (h : Offers p mark c.names)
include h

theorem Var.variable {v : Var} (hv : v.Known c) :
    p.Variable c.scope (v.token mark).1.lexeme .int := by
  cases v with
  | param n =>
    refine .local (lookup_of_mem (List.mem_append_left _ ?_) _)
    exact List.mem_map_of_mem (List.mem_range.mpr hv)
  | «global» n =>
    obtain ⟨type, init, hd, ht⟩ := h.globals n hv
    exact .global (lookup_of_not_mem (c.not_mem_variables mark n (.inl rfl)) _) hd rfl ht
  | «local» n =>
    refine .local (lookup_of_mem (List.mem_append_right _ ?_) _)
    exact List.mem_map_of_mem (List.mem_range.mpr hv)

theorem Argument.value {a : Argument} (ha : a.Known c) :
    p.Value c.scope (a.token mark).1 .int ∧ (a.token mark).1.InRange := by
  cases a with
  | var v =>
    exact ⟨.variable (v.token mark).2 (Var.variable h ha), inRange_of_ident (v.token mark).2⟩
  | number n =>
    have hwrites := Numeral.writes_decimal ha
    have hliteral := hwrites.ofLiteral?
    have hrange := hwrites.inRange ha
    rw [← toList_digits, String.ofList_toList] at hliteral hrange
    exact ⟨.literal hliteral, hrange⟩

omit h in
theorem Call.values_arguments (mark : String) (k : Call) :
    Args.values (k.arguments mark) = k.args.map fun a => (a.token mark).1 := by
  rw [Call.arguments]
  cases k.args with
  | nil => rfl
  | cons a as => simp [listed, Args.values, Chain.members]

theorem Call.typed {k : Call} (hk : k.Known c) :
    p.Typed c.scope (.call (k.callee mark).1 (Args.values (k.arguments mark))) .int := by
  obtain ⟨r, hr, hname, hlength, hparams, hret⟩ := h.functions _ _ hk.callee
  have hlookup := lookup_of_not_mem (c.not_mem_variables mark k.function (.inr rfl)) .int
  refine .call hlookup hr (congrArg Token.lexeme hname) ?_ hret
  rw [Call.values_arguments, List.forall₂_map_left_iff, List.forall₂_iff_get]
  refine ⟨hlength.symm, fun i hi hi' => ⟨.int, ?_, hparams _ (List.get_mem ..)⟩⟩
  exact (Argument.value h (hk.args _ (List.get_mem ..))).1

theorem Term.typed {t : Term} (ht : t.Known c) : p.Typed c.scope (t.phrase mark).expr .int := by
  cases t with
  | call k => exact Call.typed h ht
  | var v => exact .name (.variable (v.token mark).2 (Var.variable h ht))
  | number n => exact .literal (.literal (Number.ofLiteral? ht))

theorem Call.inRange {k : Call} (hk : k.Known c) :
    ∀ t ∈ Args.values (k.arguments mark), t.InRange := by
  rw [Call.values_arguments, List.forall_mem_map]
  exact fun a ha => (Argument.value h (hk.args a ha)).2

theorem Term.inRange {t : Term} (ht : t.Known c) :
    ∀ u ∈ (t.phrase mark).expr.values, u.InRange := by
  cases t with
  | call k => exact Call.inRange h ht
  | var v => exact List.forall_mem_singleton.mpr (inRange_of_ident (v.token mark).2)
  | number n => exact List.forall_mem_singleton.mpr (Number.inRange ht)

end

theorem result_int {op : Operator} (h : op ∈ arithmetic) :
    op.result .int .int = some .int := by
  revert op
  decide

/-- Only arithmetic gives an integer, and from integers alone. -/
theorem int_of_result {op : Operator} {l r : Ty} (h : op.result l r = some .int) :
    l = .int ∧ r = .int := by
  cases op <;> cases l <;> cases r <;> simp_all [Operator.result, Ty.isNumeric]

theorem typed_append {Γ : Locals} {op : Operator} (hop : op ∈ arithmetic) (t : Token)
    {e operand : Expr} (he : p.Typed Γ e .int) (ho : p.Typed Γ operand .int) :
    p.Typed Γ (Expr.append op t operand e) .int := by
  -- The new operator may go below one of the tree, whose right side is then an integer as well.
  induction e with
  | binary op' t' lhs rhs _ ih =>
    cases he with
    | binary hl hr h =>
      obtain ⟨rfl, rfl⟩ := int_of_result h
      rw [Expr.append]
      split
      · exact .binary hl (ih hr) h
      · exact .binary (.binary hl hr h) ho (result_int hop)
  | _ => exact .binary he ho (result_int hop)

section
variable {c : Context} (h : Offers p mark c.names) {s : Sum} (hs : s.Known c)
include h hs

theorem Sum.typed : p.Typed c.scope (s.phrase mark).expr .int := by
  have hfold (rest : List (Operator × Term)) (hrest : ∀ x ∈ rest, x.1 ∈ arithmetic ∧ x.2.Known c)
      {e : Expr} (he : p.Typed c.scope e .int) :
      p.Typed c.scope ((rest.map fun x => (operatorToken x.1, x.2.phrase mark)).foldl
        (fun l x => Expr.append x.1.op x.1.token x.2.expr l) e) .int := by
    induction rest generalizing e with
    | nil => exact he
    | cons x rest ih =>
      obtain ⟨⟨hop, hx⟩, hrest⟩ := List.forall_mem_cons.mp hrest
      exact ih hrest (typed_append hop _ he (Term.typed h hx))
  exact hfold s.rest hs.rest (Term.typed h hs.first)

theorem Sum.inRange : ∀ t ∈ (s.phrase mark).expr.values, t.InRange := by
  rw [Flat.expr, Flat.values_foldl, List.forall_mem_append]
  refine ⟨Term.inRange h hs.first, fun t ht => ?_⟩
  rw [Sum.phrase, List.flatMap_map] at ht
  obtain ⟨x, hx, ht⟩ := List.mem_flatMap.mp ht
  exact Term.inRange h (hs.rest x hx).2 t ht

end

/-- Statements lead from one scope to another, and hold only what a program may hold. -/
structure Runs (p : Program) (ret : Token) (Γ : Locals) (ss : List Stmt) (Γ' : Locals) : Prop where
  fits : ∀ rest, p.BodyFits ret Γ' rest → p.BodyFits ret Γ (ss ++ rest)
  names : Γ.map (·.1) ++ (ss.flatMap Stmt.declared).map (·.1.lexeme) = Γ'.map (·.1)
  types : ∀ x ∈ ss.flatMap Stmt.declared, ∃ ty, p.Denotes x.2 ty
  literals : ∀ t ∈ ss.flatMap Stmt.values, t.InRange

theorem Runs.nil {ret : Token} {Γ : Locals} : Runs p ret Γ [] Γ :=
  ⟨fun _ h => h, List.append_nil _, List.forall_mem_nil _, List.forall_mem_nil _⟩

theorem Runs.append {ret : Token} {Γ Γ' Γ'' : Locals} {ss ss' : List Stmt}
    (h : Runs p ret Γ ss Γ') (h' : Runs p ret Γ' ss' Γ'') : Runs p ret Γ (ss ++ ss') Γ'' where
  fits rest hrest := by
    rw [List.append_assoc]
    exact h.fits _ (h'.fits rest hrest)
  names := by
    rw [List.flatMap_append, List.map_append, ← List.append_assoc, h.names, h'.names]
  types := by
    rw [List.flatMap_append]
    exact List.forall_mem_append.mpr ⟨h.types, h'.types⟩
  literals := by
    rw [List.flatMap_append]
    exact List.forall_mem_append.mpr ⟨h.literals, h'.literals⟩

/-- One statement that declares nothing. -/
theorem Runs.one {ret : Token} {Γ : Locals} {s : Stmt} (hfits : p.Fits ret Γ s Γ)
    (hdeclared : s.declared = []) (hvalues : ∀ t ∈ s.values, t.InRange) : Runs p ret Γ [s] Γ where
  fits rest hrest := .cons hfits hrest
  names := by simp [hdeclared]
  types := by simp [hdeclared]
  literals := by simpa using hvalues

theorem Context.scope_local (c : Context) :
    ({ c with locals := c.locals + 1 } : Context).scope =
      c.scope ++ [((nameToken "" 'v' c.locals).1.lexeme, Ty.int)] := by
  simp [Context.scope, Context.variables, List.range_succ]

theorem Statement.runs {c : Context} (h : Offers p mark c.names) {s : Statement} (hs : s.Known c)
    (ret : Token) :
    Runs p ret c.scope ((s.phrases mark).map Phrase.Stmt.stmt) (c.behind s).scope := by
  cases s with
  | «local» n type init =>
    obtain ⟨rfl, htype, hinit⟩ := hs
    have hdenotes := IntType.denotes h htype
    have hfits {e : Option Expr} (hfits : p.Fits ret c.scope
          (.local (nameToken "" 'v' c.locals).1 (type.token mark).1 e)
          (c.scope ++ [((nameToken "" 'v' c.locals).1.lexeme, Ty.int)]))
        (hvalues : ∀ t ∈ (Stmt.local (nameToken "" 'v' c.locals).1 (type.token mark).1 e).values,
          t.InRange) :
        Runs p ret c.scope [.local (nameToken "" 'v' c.locals).1 (type.token mark).1 e]
          (c.behind (.local c.locals type init)).scope := by
      rw [Context.behind, Context.scope_local]
      refine ⟨fun rest hrest => .cons hfits hrest, by simp [Stmt.declared], ?_, ?_⟩
      · exact List.forall_mem_singleton.mpr ⟨.int, hdenotes⟩
      · simpa using hvalues
    cases init with
    | none => exact hfits (.declare hdenotes) (List.forall_mem_nil _)
    | some s =>
      have hs := hinit s rfl
      exact hfits (.init hdenotes (Sum.typed h hs)) (Sum.inRange h hs)
  | assign target value =>
    exact .one (.assign (Var.variable h hs.1) (Sum.typed h hs.2)) rfl (Sum.inRange h hs.2)
  | call k => exact .one (.call (Call.typed h hs)) rfl (Call.inRange h hs)
  | comment => exact .nil

theorem Body.runs {c c' : Context} {ss : List Statement} (hb : Body c ss c')
    (h : Offers p mark c.names) (ret : Token) :
    Runs p ret c.scope ((ss.flatMap (·.phrases mark)).map Phrase.Stmt.stmt) c'.scope ∧
      c'.names = c.names := by
  induction hb with
  | nil => exact ⟨.nil, rfl⟩
  | @cons c c' s ss hs _ ih =>
    have hnames : (c.behind s).names = c.names := by cases s <;> rfl
    obtain ⟨hrest, hnames'⟩ := ih (hnames ▸ h)
    rw [List.flatMap_cons, List.map_append]
    exact ⟨(Statement.runs h hs ret).append hrest, hnames'.trans hnames⟩

def Func.routine (mark : String) (f : Func) : Routine :=
  ⟨(nameToken mark 'f' f.number).1, f.params.zipIdx.map fun x => (param mark x).param,
    (f.ret.token mark).1, (f.stmts mark).map Phrase.Stmt.stmt⟩

theorem Func.decl_eq (mark : String) (f : Func) (close : TokenOf .rbrace) :
    Phrase.Item.decl (.func (f.header mark) (f.stmts mark) close) = .routine (f.routine mark) := by
  have hparams : (Params.list (listed (param mark) f.params.zipIdx)).map Phrase.Param.param =
      f.params.zipIdx.map fun x => (param mark x).param := by
    cases f.params.zipIdx with
    | nil => rfl
    | cons x xs => simp [listed, Params.list, Chain.members]
  rw [Phrase.Item.decl, Func.header, hparams]
  rfl

/-- The scope that the parameters of a function open. -/
theorem Context.scope_params (names : Names) (types : List IntType) :
    Context.scope ⟨names, types.length, 0⟩ =
      types.zipIdx.map fun x => ((nameToken "" 'p' x.2).1.lexeme, .int) := by
  have hindices : List.range types.length = types.zipIdx.map (·.2) := by
    rw [List.zipIdx_map_snd, List.range_eq_range']
  rw [Context.scope, Context.variables, List.range_zero, List.map_nil, List.append_nil, hindices,
    List.map_map, List.map_map]
  rfl

theorem Func.runs {f : Func} (h : Offers p mark names) (hf : f.Known names) :
    ∃ c : Context, Runs p (f.ret.token mark).1
      (f.params.zipIdx.map fun x => ((nameToken "" 'p' x.2).1.lexeme, .int))
      ((f.stmts mark).map Phrase.Stmt.stmt) c.scope := by
  obtain ⟨c, hbody, hresult⟩ := hf.body
  obtain ⟨hruns, hnames⟩ := hbody.runs h (f.ret.token mark).1
  have hc : Offers p mark c.names := hnames ▸ h
  have hend : Runs p (f.ret.token mark).1 c.scope
      [.ret (.bare .returnWord "return") (f.result.phrase mark).expr] c.scope :=
    .one (.ret (IntType.denotes h hf.ret) (Sum.typed hc hresult)) rfl (Sum.inRange hc hresult)
  rw [Context.scope_params] at hruns
  rw [Func.stmts, List.map_append]
  exact ⟨c, hruns.append hend⟩

theorem Func.sound {f : Func} (h : Offers p mark names) (hf : f.Known names) :
    p.Sound (.routine (f.routine mark)) := by
  obtain ⟨c, hruns⟩ := Func.runs h hf
  have hparams : ∀ x ∈ f.params.zipIdx, p.Denotes (x.1.token mark).1 .int := fun x hx =>
    IntType.denotes h (hf.params _ (List.fst_mem_of_mem_zipIdx hx))
  have hbindings : (f.routine mark).bindings =
      f.params.zipIdx.map (fun x => ((nameToken "" 'p' x.2).1, (x.1.token mark).1)) ++
        ((f.stmts mark).map Phrase.Stmt.stmt).flatMap Stmt.declared := by
    rw [Routine.bindings, Func.routine, List.map_map]
    rfl
  have hnames : (f.routine mark).bindings.map (·.1.lexeme) = c.variables := by
    have hscope : c.scope.map (·.1) = c.variables := by
      rw [Context.scope, List.map_map]
      exact List.map_id _
    rw [← hscope, ← hruns.names, hbindings, List.map_append, List.map_map, List.map_map]
    rfl
  have hopens : p.Opens (f.routine mark).params
      (f.params.zipIdx.map fun x => ((nameToken "" 'p' x.2).1.lexeme, .int)) := by
    rw [Opens, Func.routine, List.forall₂_map_left_iff, List.forall₂_map_right_iff,
      List.forall₂_same]
    exact fun x hx => ⟨rfl, hparams x hx⟩
  have hfits := hruns.fits [] .nil
  rw [List.append_nil] at hfits
  refine .routine (hnames ▸ c.nodup_variables) ?_ hruns.literals hopens hfits
  refine List.forall_mem_cons.mpr ⟨⟨.int, IntType.denotes h hf.ret⟩, List.forall_mem_map.mpr ?_⟩
  rw [hbindings]
  refine List.forall_mem_append.mpr ⟨List.forall_mem_map.mpr fun x hx => ?_, hruns.types⟩
  exact ⟨.int, hparams x hx⟩

end

/-- The declaration of a piece, if it is one. -/
def Piece.decls (mark : String) : Piece → List Decl
  | .alias n target => [.alias (nameToken mark 't' n).1 (target.token mark).1]
  | .global n type init =>
    [.global (nameToken mark 'g' n).1 (type.token mark).1 (init.map (·.token.1))]
  | .comment _ => []
  | .function f => [.routine (f.routine mark)]

theorem Piece.map_decl_items (mark : String) (x : Piece) :
    (x.items mark).map Phrase.Item.decl = x.decls mark := by
  cases x with
  | «alias» n target => rfl
  | «global» n type init => cases init <;> rfl
  | comment cs => rfl
  | function f => rw [Piece.items, List.map_singleton, Func.decl_eq, Piece.decls]

section
variable {p : Program} {mark : String} {names : Names}

theorem Piece.sound {x : Piece} (h : Offers p mark names) (hx : x.Known names) :
    ∀ d ∈ x.decls mark, p.Sound d := by
  cases x with
  | «alias» n target => exact List.forall_mem_singleton.mpr (.alias (IntType.denotes h hx.2))
  | «global» n type init =>
    obtain ⟨-, htype, hinit⟩ := hx
    refine List.forall_mem_singleton.mpr (.global (IntType.denotes h htype) ?_)
    intro t ht
    obtain ⟨v, hv, rfl⟩ := Option.map_eq_some_iff.mp ht
    exact ⟨Number.inRange (hinit v hv), Number.ofLiteral? (hinit v hv)⟩
  | comment cs => exact List.forall_mem_nil _
  | function f => exact List.forall_mem_singleton.mpr (Func.sound h hx)

theorem Offers.empty (p : Program) (mark : String) : Offers p mark .empty := ⟨nofun, nofun, nofun⟩

/-- Behind a piece the program offers what the piece declares too. -/
theorem Offers.add {x : Piece} (h : Offers p mark names) (hx : x.Known names)
    (hsub : x.decls mark ⊆ p) : Offers p mark (names.add x) := by
  cases x with
  | «alias» n target =>
    obtain ⟨rfl, htarget⟩ := hx
    refine ⟨fun i hi => ?_, h.globals, h.functions⟩
    rcases Nat.lt_succ_iff_lt_or_eq.mp hi with hi | rfl
    · exact h.aliases i hi
    · exact .alias rfl (hsub (List.mem_singleton_self _)) rfl (IntType.denotes h htarget)
  | «global» n type init =>
    obtain ⟨rfl, htype, -⟩ := hx
    refine ⟨h.aliases, fun i hi => ?_, h.functions⟩
    rcases Nat.lt_succ_iff_lt_or_eq.mp hi with hi | rfl
    · exact h.globals i hi
    · exact ⟨_, _, hsub (List.mem_singleton_self _), IntType.denotes h htype⟩
  | comment cs => exact h
  | function f =>
    refine ⟨h.aliases, h.globals, fun i arity hi => ?_⟩
    rw [Names.add, List.getElem?_append] at hi
    split at hi
    · exact h.functions i arity hi
    · next hlast =>
      -- Only the function itself is new.
      obtain ⟨hzero, rfl⟩ := List.getElem?_eq_some_iff.mp hi
      rw [List.length_singleton] at hzero
      obtain rfl : i = f.number := by rw [hx.number]; omega
      refine ⟨f.routine mark, hsub (List.mem_singleton_self _), rfl, ?_, ?_, ?_⟩
      · simp [Func.routine]
      · refine List.forall_mem_map.mpr fun x hx' => ?_
        exact IntType.denotes h (hx.params _ (List.fst_mem_of_mem_zipIdx hx'))
      · exact IntType.denotes h hx.ret

/-- What one piece offers the next can use, and so all declarations of pieces are sound. -/
theorem Pieces.sound {ps : List Piece} {names' : Names} (hps : Pieces names ps names')
    (h : Offers p mark names) (hsub : ps.flatMap (·.decls mark) ⊆ p) :
    ∀ d ∈ ps.flatMap (·.decls mark), p.Sound d := by
  induction hps with
  | nil => exact List.forall_mem_nil _
  | cons hx _ ih =>
    rw [List.flatMap_cons, List.append_subset] at hsub
    rw [List.flatMap_cons, List.forall_mem_append]
    exact ⟨Piece.sound h hx, ih (h.add hx hsub.1) hsub.2⟩

end

/-- The letter and the number of what a piece declares. -/
def Piece.keys : Piece → List (Char × Nat)
  | .alias n _ => [('t', n)]
  | .global n _ _ => [('g', n)]
  | .comment _ => []
  | .function f => [('f', f.number)]

theorem Piece.names_decls (mark : String) (x : Piece) :
    (x.decls mark).map (·.name.lexeme) =
      x.keys.map fun k => (nameToken mark k.1 k.2).1.lexeme := by
  cases x <;> rfl

/-- A letter and a number that are still free. -/
inductive Names.Free (names : Names) : Char × Nat → Prop
  | alias {n : Nat} (h : names.aliases ≤ n) : Free names ('t', n)
  | global {n : Nat} (h : names.globals ≤ n) : Free names ('g', n)
  | function {n : Nat} (h : names.functions.length ≤ n) : Free names ('f', n)

theorem Names.Free.isDigit {names : Names} {k : Char × Nat} (h : names.Free k) :
    k.1.isDigit = false := by
  cases h <;> rfl

theorem Names.Free.of_add {names : Names} {x : Piece} {k : Char × Nat} (h : (names.add x).Free k) :
    names.Free k := by
  obtain ⟨ha, hg, hf⟩ := names.le_add x
  cases h with
  | «alias» h => exact .alias (Nat.le_trans ha h)
  | «global» h => exact .global (Nat.le_trans hg h)
  | function h => exact .function (Nat.le_trans hf h)

/-- What a piece declares was free in front of it, and is not behind it. -/
theorem Piece.Known.free {names : Names} {x : Piece} (h : x.Known names) :
    ∀ k ∈ x.keys, names.Free k ∧ ¬(names.add x).Free k := by
  cases x with
  | «alias» n target =>
    obtain ⟨rfl, -⟩ := h
    refine List.forall_mem_singleton.mpr ⟨.alias (Nat.le_refl _), fun hfree => ?_⟩
    cases hfree with
    | «alias» h => exact Nat.lt_irrefl _ h
  | «global» n type init =>
    obtain ⟨rfl, -⟩ := h
    refine List.forall_mem_singleton.mpr ⟨.global (Nat.le_refl _), fun hfree => ?_⟩
    cases hfree with
    | «global» h => exact Nat.lt_irrefl _ h
  | comment cs => exact List.forall_mem_nil _
  | function f =>
    refine List.forall_mem_singleton.mpr ⟨.function (Nat.le_of_eq h.number.symm), fun hfree => ?_⟩
    cases hfree with
    | function hle =>
      rw [Names.add, List.length_append, List.length_singleton, ← h.number] at hle
      exact Nat.lt_irrefl _ hle

theorem Pieces.free {names names' : Names} {ps : List Piece} (h : Pieces names ps names') :
    (∀ k ∈ ps.flatMap Piece.keys, names.Free k) ∧ (ps.flatMap Piece.keys).Nodup := by
  induction h with
  | nil => exact ⟨List.forall_mem_nil _, List.nodup_nil⟩
  | @cons names names' x ps hx _ ih =>
    have hone : x.keys.Nodup := by cases x <;> simp [Piece.keys]
    rw [List.flatMap_cons]
    have hfree := List.forall_mem_append.mpr
      ⟨fun k hk => (hx.free k hk).1, fun k hk => (ih.1 k hk).of_add⟩
    exact ⟨hfree, hone.append ih.2 fun k hk hk' => (hx.free k hk).2 (ih.1 k hk')⟩

/-- Programs under marks that differ are well formed together. -/
theorem wellFormed_of_pieces {ms : List (String × List Piece)} (hmarks : (ms.map (·.1)).Nodup)
    (h : ∀ m ∈ ms, ∃ names, Pieces .empty m.2 names) :
    Program.WellFormed (ms.flatMap fun m => m.2.flatMap (·.decls m.1)) := by
  refine .of_sound ?_ ?_
  · have hnames : (ms.flatMap fun m => m.2.flatMap (·.decls m.1)).map (·.name.lexeme) =
        ms.flatMap fun m =>
          (m.2.flatMap Piece.keys).map fun k => (nameToken m.1 k.1 k.2).1.lexeme := by
      simp only [List.map_flatMap, Piece.names_decls]
    rw [hnames, List.nodup_flatMap]
    refine ⟨fun m hm => ?_, ?_⟩
    · obtain ⟨names, hps⟩ := h m hm
      obtain ⟨hfree, hnodup⟩ := hps.free
      refine hnodup.map_on fun k hk k' hk' heq => ?_
      obtain ⟨-, hletter, hnumber⟩ := lexeme_inj (hfree k hk).isDigit (hfree k' hk').isDigit heq
      exact Prod.ext hletter hnumber
    · rw [List.Nodup, List.pairwise_map] at hmarks
      refine hmarks.imp_of_mem fun {m m'} hm hm' hne x hx hx' => hne ?_
      obtain ⟨names, hps⟩ := h m hm
      obtain ⟨names', hps'⟩ := h m' hm'
      obtain ⟨k, hk, rfl⟩ := List.mem_map.mp hx
      obtain ⟨k', hk', heq⟩ := List.mem_map.mp hx'
      exact (lexeme_inj (hps.free.1 k hk).isDigit (hps'.free.1 k' hk').isDigit heq.symm).1
  · intro d hd
    obtain ⟨m, hm, hd⟩ := List.mem_flatMap.mp hd
    obtain ⟨names, hps⟩ := h m hm
    refine hps.sound (.empty _ m.1) (fun d' hd' => ?_) d hd
    exact List.mem_flatMap.mpr ⟨m, hm, hd'⟩

end Sample

end ThreeAddress
