import ThreeAddress.Proofs.AliasFaults

namespace ThreeAddress

namespace Stmt

/-- The functions that a statement calls. -/
def callees : Stmt → List Token
  | .local _ _ none => []
  | .local _ _ (some e) => e.callees
  | .assign _ e => e.callees
  | .call f _ => [f]
  | .ret _ e => e.callees

end Stmt

/-- What a word in a body stands for. -/
inductive Role where
  | variable
  | function
  deriving DecidableEq

namespace Role

/-- What complaints about such a word begin with. -/
def opening : Role → String
  | .variable => "undeclared identifier"
  | .function => "undeclared function"

def isComplaint (k : Role) (d : Diagnostic) : Bool := d.opens k.opening

/-- The complaint about a word that nothing declares. -/
def complaint : Role → Token → Diagnostic
  | .variable, t => Scope.undeclared t
  | .function, t => .semantic s!"undeclared function `{t.lexeme}`" t

def inExpr : Role → Expr → List Token
  | .variable, e => e.values.filter (·.kind = .ident)
  | .function, e => e.callees

/-- The words of a statement in the role. -/
def inStmt : Role → Stmt → List Token
  | .variable, s => s.uses
  | .function, s => s.callees

end Role

namespace Decl

def stmts : Decl → List Stmt
  | .routine r => r.body
  | _ => []

end Decl

namespace Located

variable (ds : Located) (k : Role)

/-- The words of statements that no declaration has and nothing in scope. A local is in scope behind
its statement. -/
def unknown : List Token → List Stmt → List Token
  | _, [] => []
  | seen, s :: ss =>
    (k.inStmt s).filter (fun t =>
      (seen.find? (·.lexeme = t.lexeme)).isNone && (ds.first? t.lexeme).isNone) ++
      unknown (seen ++ s.declared.map (·.1)) ss

/-- The words of all bodies that nothing declares, each with the number of its file. -/
def strays : List (Nat × Token) :=
  ds.flatMap fun x => (ds.unknown k (x.2.params.map (·.name)) x.2.stmts).map (x.1, ·)

/-- A word of a body that no parameter, no earlier local and no declaration has. -/
structure IsStray (x : Nat × Token) (r : Routine) (front : List Stmt) (s : Stmt)
    (back : List Stmt) : Prop where
  routine : (x.1, .routine r) ∈ ds
  body : r.body = front ++ s :: back
  word : x.2 ∈ k.inStmt s
  params : ∀ q ∈ r.params, q.name.lexeme ≠ x.2.lexeme
  locals : ∀ v ∈ front.flatMap Stmt.declared, v.1.lexeme ≠ x.2.lexeme
  heads : ∀ d ∈ ds, d.2.name.lexeme ≠ x.2.lexeme

end Located

namespace Diagnostic

/-- No complaint is about something undeclared. -/
def AllKnown (ds : List Diagnostic) : Prop := ∀ d ∈ ds, d.opens "undeclared" = false

theorem not_isComplaint {d : Diagnostic} (h : d.opens "undeclared" = false) (k : Role) :
    ¬k.isComplaint d = true := by
  intro hk
  have hopening : "undeclared".toList <+: k.opening.toList := by cases k <;> decide
  have hopens := List.isPrefixOf_iff_prefix.mpr (hopening.trans (List.isPrefixOf_iff_prefix.mp hk))
  exact absurd hopens (Bool.eq_false_iff.mp h)

namespace AllKnown

theorem filter {ds : List Diagnostic} (h : AllKnown ds) (k : Role) :
    ds.filter k.isComplaint = [] :=
  List.filter_eq_nil_iff.mpr fun d hd => not_isComplaint (h d hd) k

theorem nil : AllKnown [] := List.forall_mem_nil _

theorem semantic {message : String} {t : Token}
    (h : "undeclared".toList.isPrefixOf message.toList = false) :
    AllKnown [.semantic message t] := List.forall_mem_singleton.mpr h

theorem mismatch {want got : Option Ty} {report : Ty → Ty → Diagnostic}
    (h : ∀ a b, AllKnown [report a b]) : AllKnown (mismatch want got report) := by
  unfold ThreeAddress.mismatch
  split
  · split
    · exact nil
    · exact h _ _
  · exact nil

end AllKnown

end Diagnostic

open Diagnostic

theorem allKnown_literalFaults (t : Token) : AllKnown (literalFaults t) := by
  unfold literalFaults
  simp only
  split
  · exact .semantic (by simp [toString, List.isPrefixOf])
  · exact .nil

theorem TypeName.allKnown_of_lookup {symbols : SymbolTable} {t : Token} {d : Diagnostic}
    (h : lookup symbols t = .error d) : AllKnown [d] := by
  unfold lookup at h
  split at h <;> cases h
  · exact .semantic (by simp [toString, List.isPrefixOf])
  · exact .semantic (by simp [toString, List.isPrefixOf])

theorem allKnown_initMismatch (name : String) (t : Token) (want got : Ty) :
    AllKnown [initMismatch name t want got] :=
  .semantic (by simp [toString, List.isPrefixOf])

theorem allKnown_duplicate (name : Token) (first : Site) : AllKnown [duplicate name first] :=
  List.forall_mem_singleton.mpr (by
    simp [duplicate, opens, Diagnostic.semantic, error, withNote, toString, List.isPrefixOf])

namespace Role

/-- The complaint about a word opens with the words of its role, and with those of no other. -/
theorem isComplaint_complaint (k k' : Role) (t : Token) :
    k.isComplaint (k'.complaint t) = true ↔ k = k' := by
  cases k <;> cases k' <;>
    simp [isComplaint, complaint, opening, Scope.undeclared, opens, Diagnostic.semantic, error,
      toString, List.isPrefixOf]

theorem filter_complaint (k k' : Role) (t : Token) :
    [k'.complaint t].filter k.isComplaint = if k = k' then [k'.complaint t] else [] := by
  simp only [List.filter_cons, List.filter_nil, isComplaint_complaint]

theorem inExpr_binary (k : Role) (op : Operator) (t : Token) (lhs rhs : Expr) :
    k.inExpr (.binary op t lhs rhs) = k.inExpr lhs ++ k.inExpr rhs := by
  cases k with
  | «variable» => exact List.filter_append _ _
  | function => rfl

theorem inExpr_name (k : Role) (t : Token) :
    k.inExpr (.name t) = if t.kind = .ident then if k = .variable then [t] else [] else [] := by
  cases k <;> by_cases hk : t.kind = .ident <;> simp [inExpr, Expr.values, Expr.callees, hk]

theorem inExpr_call (k : Role) (callee : Token) (args : List Token) :
    k.inExpr (.call callee args) =
      args.flatMap (fun t => k.inExpr (.name t)) ++ if k = .function then [callee] else [] := by
  cases k with
  | function => simp [inExpr, Expr.callees]
  | «variable» =>
    rw [if_neg (by decide), List.append_nil]
    induction args with
    | nil => rfl
    | cons t args ih =>
      rw [List.flatMap_cons, ← ih]
      exact List.filter_append (p := fun u : Token => u.kind = .ident) [t] args

theorem inStmt_local (k : Role) (name type : Token) (init : Option Expr) :
    k.inStmt (.local name type init) = init.toList.flatMap k.inExpr := by
  cases init <;> cases k <;>
    simp [inStmt, inExpr, Stmt.uses, Stmt.targets, Stmt.values, Stmt.callees]

theorem inStmt_assign (k : Role) (target : Token) (e : Expr) :
    k.inStmt (.assign target e) = (if k = .variable then [target] else []) ++ k.inExpr e := by
  cases k <;> rfl

theorem inStmt_call (k : Role) (callee : Token) (args : List Token) :
    k.inStmt (.call callee args) = k.inExpr (.call callee args) := by
  cases k <;> rfl

theorem inStmt_ret (k : Role) (keyword : Token) (e : Expr) :
    k.inStmt (.ret keyword e) = k.inExpr e := by
  cases k <;> rfl

end Role

namespace Scope

variable (c : Scope) (k : Role)

/-- Nothing in scope has the word. -/
def lacks (t : Token) : Bool := (c.place? t.lexeme).isNone && (c.symbols.get? t.lexeme).isNone

/-- A word that is lacked stands for nothing, and any other for something. -/
theorem lacks_iff (t : Token) : c.lacks t = true ↔ c.nameType t.lexeme = .error none := by
  unfold lacks place? nameType
  cases c.locals[t.lexeme]? with
  | some l => simp
  | none =>
    cases c.symbols.get? t.lexeme with
    | none => simp
    | some s => by_cases hs : s.kind = .variable <;> simp [hs]

/-- Complaints that look a word up: if it is lacked, the complaint of its role, else others. -/
theorem filter_lookup {ds : List Diagnostic} {k' : Role} {t : Token}
    (hlacks : c.lacks t = true → ds = [k'.complaint t])
    (hother : c.lacks t = false → AllKnown ds) :
    ds.filter k.isComplaint = ((if k = k' then [t] else []).filter c.lacks).map k.complaint := by
  cases h : c.lacks t with
  | true =>
    rw [hlacks h, k.filter_complaint]
    split
    · next hk => simp [h, hk]
    · rfl
  | false =>
    rw [(hother h).filter]
    split <;> simp [h]

/-- Complaints about a word by what it stands for. -/
theorem filter_name {ds : List Diagnostic} {t : Token}
    (hvariable : ∀ ty, c.nameType t.lexeme = .ok ty → AllKnown ds)
    (hother : ∀ s, c.nameType t.lexeme = .error (some s) → AllKnown ds)
    (hnothing : c.nameType t.lexeme = .error none → ds = [undeclared t]) :
    ds.filter k.isComplaint =
      ((if k = .variable then [t] else []).filter c.lacks).map k.complaint := by
  refine c.filter_lookup k (fun h => hnothing ((c.lacks_iff t).mp h)) fun h => ?_
  have hknown : c.nameType t.lexeme ≠ .error none := fun hnone => by
    rw [(c.lacks_iff t).mpr hnone] at h
    cases h
  cases hname : c.nameType t.lexeme with
  | ok ty => exact hvariable ty hname
  | error found =>
    cases found with
    | some s => exact hother s hname
    | none => exact absurd hname hknown

theorem filter_value (t : Token) :
    (c.value t).2.filter k.isComplaint = ((k.inExpr (.name t)).filter c.lacks).map k.complaint := by
  rw [k.inExpr_name, value]
  split
  · refine c.filter_name k (fun ty h => ?_) (fun s h => ?_) fun h => ?_
    · rw [h]
      exact .nil
    · rw [h]
      exact .semantic (by simp [toString, List.isPrefixOf])
    · rw [h]
  · exact (allKnown_literalFaults t).filter k

theorem filter_target (t : Token) :
    (c.target t).2.filter k.isComplaint =
      ((if k = Role.variable then [t] else []).filter c.lacks).map k.complaint := by
  refine c.filter_name k (fun ty h => ?_) (fun s h => ?_) fun h => ?_
  · rw [target, h]
    exact .nil
  · rw [target, h]
    exact .semantic (by simp [toString, List.isPrefixOf])
  · rw [target, h]

/-- A word that is lacked is no function. -/
theorem function?_of_lacks {callee : Token} (h : c.lacks callee = true) :
    c.function? callee = .error (Role.function.complaint callee) := by
  obtain ⟨hplace, hget⟩ := (Bool.and_eq_true _ _).mp h
  have hlocal : c.locals.contains callee.lexeme = false := by
    rw [← Std.TreeMap.isSome_getElem?_eq_contains]
    rwa [place?, Option.isNone_map, Option.isNone_iff_eq_none, ← Option.not_isSome_iff_eq_none,
      Bool.not_eq_true] at hplace
  rw [function?, Option.isNone_iff_eq_none.mp hget]
  simp only [hlocal]
  rfl

theorem allKnown_function? {callee : Token} (h : c.lacks callee = false) {d : Diagnostic}
    (hd : c.function? callee = .error d) : AllKnown [d] := by
  unfold function? at hd
  simp only at hd
  split at hd
  · cases hd
    exact .semantic (by simp [toString, List.isPrefixOf])
  · next hlocal =>
    have hplace : c.place? callee.lexeme = none := by
      rw [← Std.TreeMap.isSome_getElem?_eq_contains, Option.not_isSome_iff_eq_none] at hlocal
      rw [place?, hlocal]
      rfl
    split at hd
    · next hget =>
      rw [lacks, hplace, hget] at h
      cases h
    · split at hd <;> cases hd
      exact .semantic (by simp [toString, List.isPrefixOf])

theorem allKnown_arguments (callee : Token) (params : List (Option Ty))
    (args : List (Token × Option Ty)) : AllKnown (arguments callee params args) := by
  unfold arguments
  split
  · intro d hd
    obtain ⟨x, -, hd⟩ := List.mem_flatMap.mp hd
    refine AllKnown.mismatch (fun a b => ?_) d hd
    exact .semantic (by simp [toString, List.isPrefixOf])
  · exact .semantic (by simp [toString, List.isPrefixOf])

theorem filter_call (callee : Token) (args : List Token) :
    (c.call callee args).2.filter k.isComplaint =
      ((k.inExpr (.call callee args)).filter c.lacks).map k.complaint := by
  have hvalues : ((args.map c.value).flatMap (·.2)).filter k.isComplaint =
      ((args.flatMap fun t => k.inExpr (.name t)).filter c.lacks).map k.complaint := by
    rw [List.flatMap_map, List.filter_flatMap, List.filter_flatMap, List.map_flatMap]
    exact List.flatMap_congr fun t _ => c.filter_value k t
  -- Behind the arguments the function is looked up, whatever they gave rise to.
  obtain ⟨ds, hcall, hlacks, hother⟩ : ∃ ds,
      (c.call callee args).2 = (args.map c.value).flatMap (·.2) ++ ds ∧
        (c.lacks callee = true → ds = [Role.function.complaint callee]) ∧
        (c.lacks callee = false → AllKnown ds) := by
    unfold call
    simp only
    split
    · next d hd =>
      refine ⟨[d], rfl, fun h => ?_, fun h => c.allKnown_function? h hd⟩
      rw [c.function?_of_lacks h] at hd
      cases hd
      rfl
    · next s hs =>
      refine ⟨_, rfl, fun h => ?_, fun _ => allKnown_arguments _ _ _⟩
      rw [c.function?_of_lacks h] at hs
      cases hs
  rw [hcall, List.filter_append, hvalues, c.filter_lookup k hlacks hother, k.inExpr_call,
    List.filter_append, List.map_append]

theorem filter_infer (e : Expr) :
    (c.infer e).2.filter k.isComplaint = ((k.inExpr e).filter c.lacks).map k.complaint := by
  induction e with
  | literal t =>
    have hsame : k.inExpr (.literal t) = k.inExpr (.name t) := by cases k <;> rfl
    rw [hsame]
    exact c.filter_value k t
  | name t => exact c.filter_value k t
  | call callee args => exact c.filter_call k callee args
  | binary op t lhs rhs hl hr =>
    obtain ⟨ds, hinfer, hds⟩ : ∃ ds,
        (c.infer (.binary op t lhs rhs)).2 = (c.infer lhs).2 ++ (c.infer rhs).2 ++ ds ∧
          AllKnown ds := by
      simp only [infer]
      split
      · split
        · exact ⟨[], (List.append_nil _).symm, .nil⟩
        · exact ⟨_, rfl, .semantic (by simp [toString, List.isPrefixOf])⟩
      · exact ⟨[], (List.append_nil _).symm, .nil⟩
    rw [hinfer, List.filter_append, List.filter_append, hl, hr, hds.filter, k.inExpr_binary,
      List.filter_append, List.map_append, List.append_nil]

end Scope

namespace Frame

variable (f : Frame) (k : Role)

theorem allKnown_again (s : Stmt) : AllKnown (f.again s) := by
  cases s with
  | «local» name type init =>
    rw [again]
    cases f.scope.locals[name.lexeme]? with
    | none => exact .nil
    | some first => exact allKnown_duplicate name first.site
  | _ => exact .nil

/-- Beside its first value, a local gives rise to other complaints only. -/
theorem statement_local (name type : Token) (init : Option Expr) :
    ∃ bad more, AllKnown bad ∧ AllKnown more ∧ (f.statement (.local name type init)).2.1 =
      bad ++ init.toList.flatMap (fun e => (f.scope.infer e).2) ++ more := by
  have hmore (ty : Option Ty) : AllKnown (init.toList.flatMap (fun e =>
      mismatch ty (f.scope.infer e).1 (initMismatch name.lexeme e.anchor)) ++
        f.again (.local name type init)) := by
    refine List.forall_mem_append.mpr ⟨fun d hd => ?_, f.allKnown_again _⟩
    obtain ⟨e, -, hd⟩ := List.mem_flatMap.mp hd
    exact AllKnown.mismatch (allKnown_initMismatch name.lexeme e.anchor) d hd
  cases hlook : TypeName.lookup f.scope.symbols type with
  | ok ty =>
    refine ⟨[], _, .nil, hmore ty, ?_⟩
    rw [← f.declare_eq_again name type init ty]
    cases init <;> simp [statement, hlook]
  | error d =>
    refine ⟨[d], _, TypeName.allKnown_of_lookup hlook, hmore none, ?_⟩
    rw [← f.declare_eq_again name type init none]
    cases init <;> simp [statement, hlook]

/-- A statement complains about its words that nothing has, each once. -/
theorem filter_statement (s : Stmt) :
    (f.statement s).2.1.filter k.isComplaint =
      ((k.inStmt s).filter f.scope.lacks).map k.complaint := by
  cases s with
  | «local» name type init =>
    obtain ⟨bad, more, hbad, hmore, hfaults⟩ := f.statement_local name type init
    rw [hfaults, List.filter_append, List.filter_append, hbad.filter, hmore.filter, k.inStmt_local,
      List.nil_append, List.append_nil, List.filter_flatMap, List.filter_flatMap, List.map_flatMap]
    exact List.flatMap_congr fun e _ => f.scope.filter_infer k e
  | assign target value =>
    have hmismatch : AllKnown (mismatch (f.scope.target target).1 (f.scope.infer value).1
        (assignMismatch target value.anchor)) :=
      .mismatch fun a b => .semantic (by simp [toString, List.isPrefixOf])
    simp only [statement, Scope.examine_eq_infer, List.filter_append, hmismatch.filter,
      f.scope.filter_target, f.scope.filter_infer, k.inStmt_assign, List.map_append,
      List.append_nil]
  | call callee args =>
    rw [k.inStmt_call]
    exact f.scope.filter_call k callee args
  | ret keyword value =>
    have hmismatch : AllKnown (mismatch f.ret (f.scope.infer value).1
        (returnMismatch f.func value.anchor)) :=
      .mismatch fun a b => .semantic (by simp [toString, List.isPrefixOf])
    simp only [statement, Scope.examine_eq_infer, List.filter_append, hmismatch.filter,
      f.scope.filter_infer, k.inStmt_ret, List.append_nil]

end Frame

namespace Role

/-- Words of a written statement have no colon. -/
theorem plain_inStmt (k : Role) {s : Stmt} (h : s.Written) :
    ∀ t ∈ k.inStmt s, ':' ∉ t.lexeme.toList := by
  intro t ht
  cases k with
  | function =>
    refine h.names t ?_
    cases s with
    | «local» name type init =>
      cases init with
      | none => cases ht
      | some e => exact List.mem_cons_of_mem _ ht
    | assign target value => exact List.mem_cons_of_mem _ ht
    | call callee args => exact ht
    | ret keyword value => exact ht
  | «variable» =>
    rcases List.mem_append.mp ht with ht | ht
    · refine h.names t ?_
      cases s with
      | assign target value =>
        obtain rfl := List.mem_singleton.mp ht
        exact List.mem_cons_self
      | _ => cases ht
    · obtain ⟨ht, hk⟩ := List.mem_filter.mp ht
      have hk := of_decide_eq_true hk
      cases h.values t ht with
      | name _ hc => exact hc
      | literal hty => simp [Ty.ofLiteral?, hk] at hty

end Role

/-- The statements of a function complain about what nothing declares, if the scope at their start
has what is seen and the table has the declarations. -/
theorem Frame.filter_statements {ds : Located} {f : Frame} {seen : List Token}
    (h : FindsFirst f.scope.place? seen)
    (hsymbols : ∀ x : String, ':' ∉ x.toList →
      (f.scope.symbols.get? x).isNone = (ds.first? x).isNone)
    (k : Role) {ss : List Stmt} (hss : ∀ s ∈ ss, s.Written) :
    (f.statements ss).1.filter k.isComplaint = (ds.unknown k seen ss).map k.complaint := by
  induction ss generalizing f seen with
  | nil => rfl
  | cons s ss ih =>
    obtain ⟨hs, hss⟩ := List.forall_mem_cons.mp hss
    have hwords : (k.inStmt s).filter f.scope.lacks = (k.inStmt s).filter fun t =>
        (seen.find? (·.lexeme = t.lexeme)).isNone && (ds.first? t.lexeme).isNone := by
      refine List.filter_congr fun t ht => ?_
      rw [Scope.lacks, h, Option.isNone_map, hsymbols _ (k.plain_inStmt hs t ht)]
    -- Behind the statement its local is in scope too; the table stays as it is.
    have hmore := ih (finds_statement h s) ((f.symbols_statement s).symm ▸ hsymbols) hss
    rw [statements, List.filter_append, f.filter_statement, hwords, hmore, Located.unknown,
      List.map_append]

namespace Located

variable (ds : Located) (k : Role)

theorem mem_unknown {t : Token} {seen : List Token} {ss : List Stmt} :
    t ∈ ds.unknown k seen ss ↔ ∃ (front : List Stmt) (s : Stmt) (back : List Stmt),
      ss = front ++ s :: back ∧ t ∈ k.inStmt s ∧
      (∀ u ∈ seen, u.lexeme ≠ t.lexeme) ∧
      (∀ v ∈ front.flatMap Stmt.declared, v.1.lexeme ≠ t.lexeme) ∧
      ∀ d ∈ ds, d.2.name.lexeme ≠ t.lexeme := by
  induction ss generalizing seen with
  | nil =>
    refine ⟨nofun, ?_⟩
    rintro ⟨front, s, back, hss, -⟩
    exact absurd hss.symm (by simp)
  | cons s ss ih =>
    have hhead : t ∈ (k.inStmt s).filter (fun t =>
        (seen.find? (·.lexeme = t.lexeme)).isNone && (ds.first? t.lexeme).isNone) ↔
          t ∈ k.inStmt s ∧ (∀ u ∈ seen, u.lexeme ≠ t.lexeme) ∧
            ∀ d ∈ ds, d.2.name.lexeme ≠ t.lexeme := by
      simp [first?]
    rw [unknown, List.mem_append, hhead, ih]
    constructor
    · rintro (⟨hword, hseen, hheads⟩ | ⟨front, s', back, rfl, hword, hseen, hfront, hheads⟩)
      · exact ⟨[], s, ss, rfl, hword, hseen, List.forall_mem_nil _, hheads⟩
      · obtain ⟨hseen, hown⟩ := List.forall_mem_append.mp hseen
        refine ⟨s :: front, s', back, rfl, hword, hseen, ?_, hheads⟩
        refine List.forall_mem_append.mpr ⟨fun v hv => ?_, hfront⟩
        exact hown v.1 (List.mem_map_of_mem hv)
    · rintro ⟨front, s', back, hss, hword, hseen, hfront, hheads⟩
      cases front with
      | nil =>
        cases hss
        exact .inl ⟨hword, hseen, hheads⟩
      | cons s'' front =>
        cases hss
        obtain ⟨hown, hfront⟩ := List.forall_mem_append.mp hfront
        refine .inr ⟨front, s', back, rfl, hword, ?_, hfront, hheads⟩
        refine List.forall_mem_append.mpr ⟨hseen, fun u hu => ?_⟩
        obtain ⟨v, hv, rfl⟩ := List.mem_map.mp hu
        exact hown v hv

theorem mem_strays {x : Nat × Token} :
    x ∈ ds.strays k ↔ ∃ r front s back, ds.IsStray k x r front s back := by
  rw [strays, List.mem_flatMap]
  constructor
  · rintro ⟨⟨i, d⟩, hd, hx⟩
    obtain ⟨t, ht, rfl⟩ := List.mem_map.mp hx
    obtain ⟨front, s, back, hbody, hword, hparams, hfront, hheads⟩ := (ds.mem_unknown k).mp ht
    cases d with
    | routine r =>
      refine ⟨r, front, s, back, hd, hbody, hword, fun q hq => ?_, hfront, hheads⟩
      exact hparams q.name (List.mem_map_of_mem hq)
    | _ => exact absurd hbody.symm (by simp [Decl.stmts])
  · rintro ⟨r, front, s, back, h⟩
    refine ⟨_, h.routine, List.mem_map.mpr ⟨x.2, (ds.mem_unknown k).mpr ?_, rfl⟩⟩
    refine ⟨front, s, back, h.body, h.word, fun u hu => ?_, h.locals, h.heads⟩
    obtain ⟨q, hq, rfl⟩ := List.mem_map.mp hu
    exact h.params q hq

theorem unknown_sublist (seen : List Token) (ss : List Stmt) :
    (ds.unknown k seen ss).Sublist (ss.flatMap k.inStmt) := by
  induction ss generalizing seen with
  | nil => exact List.Sublist.refl _
  | cons s ss ih => exact List.filter_sublist.append (ih _)

end Located

namespace Phrase

theorem Args.values_sublist (as : Option Args) : (Args.values as).Sublist (Args.tokens as) := by
  cases as with
  | none => exact List.Sublist.refl _
  | some c =>
    have h := c.sublist_flatten (f := fun v : ValueToken => [v.1]) (fun s => [s.1])
      fun v => List.Sublist.refl [v.1]
    rwa [← List.map_eq_flatMap] at h

theorem Term.inExpr_sublist (k : Role) (x : Term) : (k.inExpr x.expr).Sublist x.tokens := by
  cases k with
  | «variable» =>
    refine List.filter_sublist.trans ?_
    cases x with
    | call f opening args closing =>
      have h := (Args.values_sublist args).trans (List.sublist_append_left _ [closing.1])
      exact (h.cons _).cons _
    | _ => exact List.Sublist.refl _
  | function =>
    cases x with
    | call f opening args closing => exact (List.nil_sublist _).cons_cons _
    | _ => exact List.nil_sublist _

theorem Flat.inExpr_sublist (k : Role) (e : Flat) : (k.inExpr e.expr).Sublist e.tokens := by
  have hmembers : k.inExpr e.expr = e.members.flatMap fun x => k.inExpr x.expr := by
    cases k with
    | «variable» =>
      simp [Role.inExpr, expr, values_foldl, Chain.members, List.flatMap_map, List.filter_flatMap]
    | function => simp [Role.inExpr, expr, callees_foldl, Chain.members, List.flatMap_map]
  rw [hmembers]
  exact e.sublist_flatten _ (Term.inExpr_sublist k)

/-- The words of a statement stand in it in their order. -/
theorem Stmt.inStmt_sublist (k : Role) (s : Stmt) : (k.inStmt s.stmt).Sublist s.tokens := by
  cases s with
  | «local» keyword name colon type semi =>
    rw [stmt, k.inStmt_local]
    exact List.nil_sublist _
  | call f opening args closing semi =>
    have hcall := (Term.call f opening args closing).inExpr_sublist k
    have htokens : (Stmt.call f opening args closing semi).tokens =
        (Term.call f opening args closing).tokens ++ [semi.1] := by
      simp [tokens, Term.tokens]
    rw [stmt, k.inStmt_call, htokens]
    exact hcall.trans (List.sublist_append_left _ _)
  | valued head value semi =>
    have hhead : ∃ words, k.inStmt (head.stmt value.expr) = words ++ k.inExpr value.expr ∧
        words.Sublist head.tokens := by
      cases head with
      | «local» keyword name colon type eq =>
        exact ⟨[], by simp [Head.stmt, k.inStmt_local], List.nil_sublist _⟩
      | assign name eq =>
        refine ⟨_, k.inStmt_assign _ _, ?_⟩
        split
        · exact (List.nil_sublist _).cons_cons _
        · exact List.nil_sublist _
      | ret keyword => exact ⟨[], k.inStmt_ret _ _, List.nil_sublist _⟩
    obtain ⟨words, hwords, hsub⟩ := hhead
    rw [stmt, hwords, tokens]
    exact (hsub.append (value.inExpr_sublist k)).trans (List.sublist_append_left _ _)

theorem Item.inStmt_sublist (k : Role) (i : Item) :
    (i.decl.stmts.flatMap k.inStmt).Sublist i.tokens := by
  cases i with
  | func header body close =>
    have hbody : ((body.map Stmt.stmt).flatMap k.inStmt).Sublist (body.flatMap Stmt.tokens) := by
      rw [List.flatMap_map]
      exact List.Sublist.flatMap_right _ fun s _ => s.inStmt_sublist k
    exact (hbody.trans (List.sublist_append_right _ _)).trans (List.sublist_append_left _ _)
  | _ => exact List.nil_sublist _

end Phrase

theorem Role.filter_known (k : Role) {fs : List Fault}
    (h : ∀ f ∈ fs, f.diagnostic.opens "undeclared" = false) :
    fs.filter (fun f => k.isComplaint f.diagnostic) = [] :=
  List.filter_eq_nil_iff.mpr fun f hf => not_isComplaint (h f hf) k

namespace Located

theorem known_typeFaults (ws : Located) (x : Nat × Decl) :
    ∀ f ∈ ws.typeFaults x, f.diagnostic.opens "undeclared" = false := by
  intro f hf
  obtain ⟨t, -, hf⟩ := List.mem_filterMap.mp hf
  unfold typeFault? at hf
  split at hf
  · cases hf
  · cases hf
    simp [TypeName.unknownType, opens, Diagnostic.semantic, error, toString, List.isPrefixOf]
  · split at hf
    · cases hf
    · cases hf
      simp [TypeName.notType, withNote, opens, Diagnostic.semantic, error, toString,
        List.isPrefixOf]

theorem known_initFaults (types : Token → Option Ty) (x : Nat × Decl) :
    ∀ f ∈ initFaults types x, f.diagnostic.opens "undeclared" = false := by
  obtain ⟨i, d⟩ := x
  cases d with
  | «global» name type init =>
    intro f hf
    obtain ⟨d, hd, rfl⟩ := List.mem_map.mp hf
    unfold Resolution.checkInit at hd
    split at hd
    · refine List.forall_mem_append.mpr ⟨allKnown_literalFaults _, ?_⟩ d hd
      exact AllKnown.mismatch (allKnown_initMismatch _ _)
    · cases hd
  | _ => exact List.forall_mem_nil _

theorem known_cycleFault (x : Nat × Decl) :
    (cycleFault x).diagnostic.opens "undeclared" = false := by
  simp [cycleFault, opens, error, toString, List.isPrefixOf]

/-- Complaints about second declarations are not about something undeclared. -/
theorem known_clashes {seen ds : Located} :
    ∀ f ∈ clashes seen ds, f.diagnostic.opens "undeclared" = false := by
  intro f hf
  have hdup : f.diagnostic.opens "duplicate declaration" = true := isDuplicate_of_mem_clashes f hf
  rw [Bool.eq_false_iff]
  intro hundeclared
  -- Of two openings of one message one would begin with the other.
  have hnested := List.prefix_or_prefix_of_prefix
    (List.isPrefixOf_iff_prefix.mp hdup) (List.isPrefixOf_iff_prefix.mp hundeclared)
  exact absurd hnested (by decide)

end Located

/-- Parameters change the locals only. -/
theorem Scope.symbols_foldl {take : Scope → Param → Scope}
    (h : ∀ c q, (take c q).symbols = c.symbols) (params : List Param) (c : Scope) :
    (params.foldl take c).symbols = c.symbols := by
  induction params generalizing c with
  | nil => rfl
  | cons q params ih => exact (ih (take c q)).trans (h c q)

theorem Function.symbols_opening (g : Function) (t : SymbolTable) :
    (g.opening t).scope.symbols = t := by
  rw [opening]
  simp only
  split
  · refine Scope.symbols_foldl (fun c q => ?_) g.params ⟨t, {}⟩
    split
    · split <;> rfl
    · rfl
  · refine Scope.symbols_foldl (fun c q => ?_) g.params ⟨t, {}⟩
    split <;> rfl

namespace ReadFile

variable {b : List ReadFile}

/-- The table that bodies are checked against has the names of the declarations. -/
theorem isNone_typedSymbols (h : Distinct b) {x : String} (hx : ':' ∉ x.toList) :
    ((Merged.ofFiles (b.map numbered)).typedSymbols.get? x).isNone =
      ((located b).first? x).isNone := by
  have hnames := SymbolTable.map_recorded (g := Symbol.name) (fun _ _ _ => rfl)
    (Merged.ofFiles (b.map numbered)).symbols (Merged.ofFiles (b.map numbered)).resolved x
  rw [(merged_follows h).2.2.heads x hx, Option.map_map] at hnames
  have hnone := congrArg Option.isNone hnames
  rwa [Option.isNone_map, Option.isNone_map] at hnone

theorem undeclared_check (h : Distinct b) (k : Role) {i : Nat} {r : Routine}
    (hr : (i, .routine r) ∈ located b) {g : Function} (hg : g.routine = .ok r) :
    (g.check (Merged.ofFiles (b.map numbered)).typedSymbols).1.filter k.isComplaint =
      ((located b).unknown k (r.params.map (·.name)) r.body).map k.complaint := by
  obtain ⟨-, -, -, hbody⟩ := Function.routine_eq_ok hg
  have hwritten : ∀ s ∈ r.body, s.Written := by
    intro s hs
    have hd := Located.mem_program hr
    constructor
    · intro u hu
      refine (written_located b).names _ hd u (List.mem_append_right _ ?_)
      exact List.mem_flatMap.mpr ⟨s, hs, hu⟩
    · intro u hu
      exact (written_located b).values _ hd u (List.mem_flatMap.mpr ⟨s, hs, hu⟩)
  rw [Function.check_eq_body, Frame.body_eq_statements _ hbody]
  refine Frame.filter_statements (finds_opening h hr hg) (fun x hx => ?_) k hwritten
  rw [g.symbols_opening]
  exact isNone_typedSymbols h hx

/-- All complaints about words that nothing declares. -/
theorem undeclared_eq (hsource : ∀ f ∈ b, f.tree.FromSource) (h : Distinct b) (k : Role) :
    (Analysis.ofFiles (b.map numbered)).faults.filter (fun f => k.isComplaint f.diagnostic) =
      ((located b).strays k).map fun x => ⟨x.1, k.complaint x.2⟩ := by
  have hmerged : (Merged.ofFiles (b.map numbered)).faults.filter
      (fun f => k.isComplaint f.diagnostic) = [] := by
    rw [(merged_follows h).1]
    exact k.filter_known Located.known_clashes
  have hresolved : ((Merged.ofFiles (b.map numbered)).resolved.flatMap (·.2)).filter
      (fun f => k.isComplaint f.diagnostic) = [] := by
    obtain ⟨reps, -, hperm, -⟩ := resolved_faults hsource
    refine k.filter_known fun f hf => ?_
    rcases List.mem_append.mp (hperm.subset hf) with hf | hf
    · rcases List.mem_append.mp hf with hf | hf
      · obtain ⟨x, -, rfl⟩ := List.mem_map.mp hf
        exact Located.known_cycleFault x
      · obtain ⟨x, -, hf⟩ := List.mem_flatMap.mp hf
        exact Located.known_typeFaults _ x f hf
    · obtain ⟨x, -, hf⟩ := List.mem_flatMap.mp hf
      exact Located.known_initFaults _ x f hf
  have hbodies : (bodyFaults (Merged.ofFiles (b.map numbered)).typedSymbols b).filter
      (fun f => k.isComplaint f.diagnostic) =
        ((located b).strays k).map fun x => ⟨x.1, k.complaint x.2⟩ := by
    refine (filter_bodyFaults (F := fun d =>
      ((located b).unknown k (d.params.map (·.name)) d.stmts).map k.complaint) (fun d hd => ?_)
      fun i r g hr hg => undeclared_check h k hr hg).trans ?_
    · cases d with
      | routine r => cases hd
      | _ => rfl
    · simp only [Located.strays, List.map_flatMap, List.map_map]
      rfl
  rw [faults_eq, List.filter_append, List.filter_append, hmerged, hresolved, hbodies]
  rfl

/-- Words that nothing declares stand at places of their own. -/
theorem nodup_strays (hsource : ∀ f ∈ b, f.tree.FromSource)
    (hlabels : (b.map (·.tree.file)).Nodup) (k : Role) :
    (((located b).strays k).map (·.2.site)).Nodup := by
  have hsites := nodup_sites hsource hlabels (g := fun d => d.stmts.flatMap k.inStmt)
    (Phrase.Item.inStmt_sublist k)
  have hstrays : ((located b).strays k).map (·.2.site) = ((located b).flatMap fun x =>
      (located b).unknown k (x.2.params.map (·.name)) x.2.stmts).map (·.site) := by
    simp only [Located.strays, List.map_flatMap, List.map_map]
    rfl
  rw [hstrays]
  refine hsites.sublist (List.Sublist.map _ ?_)
  exact List.Sublist.flatMap_right _ fun x _ => (located b).unknown_sublist k _ _

end ReadFile

/-- Let the files of a batch have labels of their own. The complaints about undeclared variables,
and likewise those about undeclared functions, correspond to the words of all bodies in that role
that no parameter of the function, no local of an earlier statement and no declaration of the batch
has. Every such word is complained about once, at its own place and in its own file. -/
theorem undeclared_reported_once (outcomes : List (Option Tree))
    (h : ∀ t, some t ∈ outcomes → t.FromSource)
    (hlabels : (outcomes.reduceOption.map (·.file)).Nodup) :
    ∃ ds, Located.ofFiles (parsedFiles outcomes) = .ok ds ∧ ∀ k : Role,
      ((Analysis.ofOutcomes outcomes).faults.filter (fun f => k.isComplaint f.diagnostic) =
        (ds.strays k).map fun x => ⟨x.1, k.complaint x.2⟩) ∧
      (∀ x, x ∈ ds.strays k ↔ ∃ r front s back, ds.IsStray k x r front s back) ∧
      ((ds.strays k).map (·.2.site)).Nodup ∧
      ∀ t, (k.complaint t).place = .site t.site := by
  obtain ⟨b, hb, -, hsource, hfiles, hdistinct⟩ := ReadFile.exists_distinct h hlabels
  rw [Analysis.ofOutcomes, ← hb]
  refine ⟨_, ReadFile.ofFiles_numbered b, fun k => ⟨ReadFile.undeclared_eq hsource hdistinct k,
    fun x => Located.mem_strays _ k, ReadFile.nodup_strays hsource hfiles k, fun t => ?_⟩⟩
  cases k <;> rfl

/-- Two files with a function of one name. A local is used in its own first value and behind it, and
other things are wrong in the same statements. -/
theorem undeclared_reported_once_two_files :
    let outcomes := [
      Tree.ofText? "a"
        "func f(x: int): int { z = g(q, x, p) + h(q); var z: no = z; z = w(z); return v; }",
      none,
      Tree.ofText? "b" "type p = int;\nfunc f(q: int): int { q = x; var q: bool; z(q); return q; }"]
    let places (fs : List Fault) := fs.map fun f => (f.origin, f.diagnostic.key.2)
    (outcomes.reduceOption.map (·.file)).Nodup ∧
      ∃ ds, Located.ofFiles (parsedFiles outcomes) = .ok ds ∧
        places ((ds.strays .variable).map fun x => ⟨x.1, Role.variable.complaint x.2⟩) =
          [(0, 1, 23), (0, 1, 29), (0, 1, 42), (0, 1, 58), (0, 1, 78), (2, 2, 27)] ∧
        places ((ds.strays .function).map fun x => ⟨x.1, Role.function.complaint x.2⟩) =
          [(0, 1, 27), (0, 1, 40), (0, 1, 65), (2, 2, 43)] := by
  rw [Tree.ofText?_ofList, Tree.ofText?_ofList]
  intro outcomes places
  have hlabels : (outcomes.reduceOption.map (·.file)).Nodup := by decide +kernel
  obtain ⟨ds, hds, hroles⟩ := undeclared_reported_once outcomes Tree.fromSource_of_mem_pair hlabels
  refine ⟨hlabels, ds, hds, ?_⟩
  rw [← (hroles .variable).1, ← (hroles .function).1]
  decide +kernel

end ThreeAddress
