import ThreeAddress.Analysis.Batch
import ThreeAddress.Proofs.Signature
import ThreeAddress.Proofs.Whereabouts

namespace ThreeAddress

namespace Diagnostic

/-- The message begins with some words. -/
def opens (words : String) (d : Diagnostic) : Bool := words.toList.isPrefixOf d.message.toList

/-- A name is declared again. -/
def isDuplicate (d : Diagnostic) : Bool := d.opens "duplicate declaration"

/-- An alias leads back to itself. -/
def isCyclic (d : Diagnostic) : Bool := d.opens "cyclic type alias"

/-- An error at a token that satisfies a condition. -/
structure Stands (P : Token → Prop) (d : Diagnostic) : Prop where
  isError : d.isError = true
  place : ∃ t, P t ∧ d.place = .site t.site

/-- Such an error about something else than a second declaration or a cycle. -/
structure Complains (P : Token → Prop) (d : Diagnostic) : Prop extends Stands P d where
  notDuplicate : d.isDuplicate = false
  notCyclic : d.isCyclic = false

/-- The words of a message are not those about a second declaration or a cycle. -/
def Plain (message : String) : Prop :=
  "duplicate declaration".toList.isPrefixOf message.toList = false ∧
    "cyclic type alias".toList.isPrefixOf message.toList = false

variable {P : Token → Prop}

theorem Complains.semantic {message : String} {t : Token} (ht : P t)
    (h : Plain message) : (semantic message t).Complains P := ⟨⟨rfl, t, ht, rfl⟩, h.1, h.2⟩

theorem Complains.withNote {d : Diagnostic} (h : d.Complains P) (message : String) (site : Site) :
    (d.withNote message site).Complains P :=
  ⟨⟨h.isError, h.place⟩, h.notDuplicate, h.notCyclic⟩

/-- All diagnostics of a list are such errors. -/
def AllComplain (P : Token → Prop) (ds : List Diagnostic) : Prop := ∀ d ∈ ds, d.Complains P

namespace AllComplain

theorem nil : AllComplain P [] := List.forall_mem_nil _

theorem append {ds es : List Diagnostic} :
    AllComplain P (ds ++ es) ↔ AllComplain P ds ∧ AllComplain P es := List.forall_mem_append

theorem flatMap {α : Type} {f : α → List Diagnostic} {as : List α}
    (h : ∀ a ∈ as, AllComplain P (f a)) : AllComplain P (as.flatMap f) := by
  intro d hd
  obtain ⟨a, ha, hd⟩ := List.mem_flatMap.mp hd
  exact h a ha d hd

theorem singleton {message : String} {t : Token} (ht : P t)
    (h : Plain message) : AllComplain P [semantic message t] :=
  List.forall_mem_singleton.mpr (.semantic ht h)

end AllComplain

end Diagnostic

open Diagnostic

variable {P : Token → Prop}

theorem isDuplicate_duplicate (name : Token) (first : Site) :
    (duplicate name first).isDuplicate = true := by
  simp [duplicate, isDuplicate, opens, semantic, error, withNote, toString]

theorem isCyclic_duplicate (name : Token) (first : Site) :
    (duplicate name first).isCyclic = false := by
  simp [duplicate, isCyclic, opens, semantic, error, withNote, toString, List.isPrefixOf]

theorem Malformed.complains_diagnostic {m : Malformed} (h : ∃ t, P t ∧ m.site = t.site) :
    m.diagnostic.Complains P := by
  obtain ⟨t, ht, hs⟩ := h
  refine ⟨⟨rfl, t, ht, congrArg Place.site hs⟩, ?_, ?_⟩
  · simp [diagnostic, isDuplicate, opens, error, detail, toString, List.isPrefixOf]
  · simp [diagnostic, isCyclic, opens, error, detail, toString, List.isPrefixOf]

theorem allComplain_literalFaults {t : Token} (ht : P t) : AllComplain P (literalFaults t) := by
  unfold literalFaults
  simp only
  split
  · exact .singleton ht (by simp [Plain, toString, List.isPrefixOf])
  · exact .nil

theorem allComplain_mismatch {want got : Option Ty} {report : Ty → Ty → Diagnostic}
    (h : ∀ a b, (report a b).Complains P) : AllComplain P (mismatch want got report) := by
  unfold mismatch
  split
  · split
    · exact .nil
    · exact List.forall_mem_singleton.mpr (h _ _)
  · exact .nil

theorem complains_initMismatch (name : String) {t : Token} (ht : P t) (want got : Ty) :
    (initMismatch name t want got).Complains P :=
  .semantic ht (by simp [Plain, toString, List.isPrefixOf])

namespace TypeName

theorem complains_unknownType {t : Token} (ht : P t) : (unknownType t).Complains P :=
  .semantic ht (by simp [Plain, toString, List.isPrefixOf])

theorem complains_notType {t : Token} (ht : P t) (s : Symbol) : (notType t s).Complains P :=
  .semantic ht (by simp [Plain, toString, List.isPrefixOf])

theorem complains_of_lookup {symbols : SymbolTable} {t : Token} {d : Diagnostic} (ht : P t)
    (h : lookup symbols t = .error d) : d.Complains P := by
  unfold lookup at h
  split at h <;> cases h
  · exact complains_notType ht _
  · exact complains_unknownType ht

end TypeName

namespace Scope

variable (c : Scope)

theorem complains_undeclared {t : Token} (ht : P t) : (undeclared t).Complains P :=
  .semantic ht (by simp [Plain, toString, List.isPrefixOf])

theorem allComplain_value {t : Token} (ht : P t) : AllComplain P (c.value t).2 := by
  unfold value
  split
  · split
    · exact .nil
    · exact .singleton ht (by simp [Plain, toString, List.isPrefixOf])
    · exact List.forall_mem_singleton.mpr (complains_undeclared ht)
  · exact allComplain_literalFaults ht

theorem allComplain_target {t : Token} (ht : P t) : AllComplain P (c.target t).2 := by
  unfold target
  split
  · exact .nil
  · exact .singleton ht (by simp [Plain, toString, List.isPrefixOf])
  · exact List.forall_mem_singleton.mpr (complains_undeclared ht)

theorem complains_of_function? {callee : Token} {d : Diagnostic} (ht : P callee)
    (h : c.function? callee = .error d) : d.Complains P := by
  unfold function? at h
  simp only at h
  split at h
  · cases h
    exact .semantic ht (by simp [Plain, toString, List.isPrefixOf])
  · split at h
    · cases h
      exact .semantic ht (by simp [Plain, toString, List.isPrefixOf])
    · split at h <;> cases h
      exact .semantic ht (by simp [Plain, toString, List.isPrefixOf])

theorem allComplain_arguments {callee : Token} (ht : P callee) (params : List (Option Ty))
    {args : List (Token × Option Ty)} (hargs : ∀ x ∈ args, P x.1) :
    AllComplain P (arguments callee params args) := by
  unfold arguments
  split
  · refine AllComplain.flatMap fun x hx => ?_
    obtain ⟨⟨want, arg, got⟩, i⟩ := x
    have harg := hargs _ (List.of_mem_zip (List.fst_mem_of_mem_zipIdx hx)).2
    refine allComplain_mismatch fun a b => ?_
    exact .semantic harg (by simp [Plain, toString, List.isPrefixOf])
  · exact .singleton ht (by simp [Plain, toString, List.isPrefixOf])

theorem allComplain_call {callee : Token} {args : List Token}
    (h : ∀ t ∈ callee :: args, P t) : AllComplain P (c.call callee args).2 := by
  obtain ⟨hcallee, hargs⟩ := List.forall_mem_cons.mp h
  have hvalues : AllComplain P ((args.map c.value).flatMap (·.2)) := by
    refine AllComplain.flatMap fun v hv => ?_
    obtain ⟨t, ht, rfl⟩ := List.mem_map.mp hv
    exact c.allComplain_value (hargs t ht)
  unfold call
  simp only
  split
  · next d hd =>
    have hd := List.forall_mem_singleton.mpr (c.complains_of_function? hcallee hd)
    exact AllComplain.append.mpr ⟨hvalues, hd⟩
  · refine AllComplain.append.mpr ⟨hvalues, allComplain_arguments hcallee _ fun x hx => ?_⟩
    exact hargs x.1 (List.of_mem_zip hx).1

theorem allComplain_infer {e : Expr} (h : ∀ t ∈ e.tokens, P t) :
    AllComplain P (c.infer e).2 := by
  induction e with
  | literal t => exact c.allComplain_value (h t List.mem_cons_self)
  | name t => exact c.allComplain_value (h t List.mem_cons_self)
  | call callee args => exact c.allComplain_call h
  | binary op t lhs rhs hl hr =>
    obtain ⟨hlhs, hrest⟩ := List.forall_mem_append.mp h
    obtain ⟨ht, hrhs⟩ := List.forall_mem_cons.mp hrest
    have hboth := AllComplain.append.mpr ⟨hl hlhs, hr hrhs⟩
    simp only [infer]
    split
    · split
      · exact hboth
      · refine AllComplain.append.mpr ⟨hboth, ?_⟩
        exact .singleton ht (by simp [Plain, toString, List.isPrefixOf])
    · exact hboth

end Scope

theorem Expr.anchor_mem_tokens (e : Expr) : e.anchor ∈ e.tokens := by
  induction e with
  | literal t => exact List.mem_cons_self
  | name t => exact List.mem_cons_self
  | call callee args => exact List.mem_cons_self
  | binary op t lhs rhs hl _ => exact List.mem_append_left _ hl

/-- An error at a token, and not about a cycle. -/
def Diagnostic.Acyclic (P : Token → Prop) (d : Diagnostic) : Prop :=
  d.Stands P ∧ d.isCyclic = false

theorem Diagnostic.Complains.acyclic {d : Diagnostic} (h : d.Complains P) : d.Acyclic P :=
  ⟨h.toStands, h.notCyclic⟩

/-- An error at a token, and not about a second declaration. -/
def Diagnostic.Unrepeated (P : Token → Prop) (d : Diagnostic) : Prop :=
  d.Stands P ∧ d.isDuplicate = false

theorem Diagnostic.Complains.unrepeated {d : Diagnostic} (h : d.Complains P) : d.Unrepeated P :=
  ⟨h.toStands, h.notDuplicate⟩

theorem acyclic_duplicate {name : Token} (h : P name) (first : Site) :
    (duplicate name first).Acyclic P :=
  ⟨⟨rfl, name, h, rfl⟩, isCyclic_duplicate name first⟩

namespace Frame

/-- The complaint about a local whose name is taken. -/
def again (f : Frame) : Stmt → List Diagnostic
  | .local name _ _ =>
    (f.scope.locals[name.lexeme]?.map fun first => duplicate name first.site).toList
  | _ => []

theorem declare_eq_again (f : Frame) (name type : Token) (init : Option Expr) (ty : Option Ty) :
    (f.declare name ty).2.1 = f.again (.local name type init) := by
  unfold declare again
  split
  · next first h => simp [h]
  · next h => simp [h]

/-- A statement complains about its tokens, and last about a local whose name is taken. -/
theorem statement_faults (f : Frame) {s : Stmt} (h : ∀ t ∈ s.tokens, P t) :
    ∃ ds, AllComplain P ds ∧ (f.statement s).2.1 = ds ++ f.again s := by
  cases s with
  | «local» name type init =>
    refine ⟨_, ?_, congrArg (_ ++ ·) (f.declare_eq_again name type init _)⟩
    have htype : P type := by
      cases init <;> exact h type (List.mem_cons_of_mem _ List.mem_cons_self)
    refine AllComplain.append.mpr ⟨?_, ?_⟩
    · split
      · exact .nil
      · next d hd => exact List.forall_mem_singleton.mpr (TypeName.complains_of_lookup htype hd)
    · cases init with
      | none => exact .nil
      | some e =>
        have he : ∀ t ∈ e.tokens, P t := fun t ht =>
          h t (List.mem_cons_of_mem _ (List.mem_cons_of_mem _ ht))
        simp only [Scope.examine_eq_infer]
        refine AllComplain.append.mpr ⟨f.scope.allComplain_infer he, ?_⟩
        exact allComplain_mismatch (complains_initMismatch _ (he _ e.anchor_mem_tokens))
  | assign target value =>
    obtain ⟨ht, hv⟩ := List.forall_mem_cons.mp h
    refine ⟨_, ?_, (List.append_nil _).symm⟩
    simp only [statement, Scope.examine_eq_infer, AllComplain.append]
    refine ⟨⟨f.scope.allComplain_target ht, f.scope.allComplain_infer hv⟩, ?_⟩
    refine allComplain_mismatch fun a b => ?_
    exact .semantic (hv _ value.anchor_mem_tokens) (by simp [Plain, toString, List.isPrefixOf])
  | call callee args =>
    exact ⟨_, f.scope.allComplain_call h, (List.append_nil _).symm⟩
  | ret keyword value =>
    obtain ⟨-, hv⟩ := List.forall_mem_cons.mp h
    refine ⟨_, ?_, (List.append_nil _).symm⟩
    simp only [statement, Scope.examine_eq_infer, AllComplain.append]
    refine ⟨f.scope.allComplain_infer hv, allComplain_mismatch fun a b => ?_⟩
    exact .semantic (hv _ value.anchor_mem_tokens) (by simp [Plain, toString, List.isPrefixOf])

theorem name_mem_tokens (name type : Token) (init : Option Expr) :
    name ∈ (Stmt.local name type init).tokens := by
  cases init <;> exact List.mem_cons_self

theorem acyclic_again (f : Frame) {s : Stmt} (h : ∀ t ∈ s.tokens, P t) :
    ∀ d ∈ f.again s, d.Acyclic P := by
  intro d hd
  cases s with
  | «local» name type init =>
    obtain ⟨first, -, rfl⟩ := Option.map_eq_some_iff.mp (Option.mem_toList.mp hd)
    exact acyclic_duplicate (h name (name_mem_tokens name type init)) first.site
  | _ => cases hd

theorem acyclic_body (f : Frame) {ns : List Node} (h : ∀ n ∈ ns, n.All P) :
    ∀ d ∈ (f.body ns).1, d.Acyclic P := by
  induction ns generalizing f with
  | nil => exact List.forall_mem_nil _
  | cons n ns ih =>
    obtain ⟨hn, hns⟩ := List.forall_mem_cons.mp h
    have hview := Stmt.views_ofNode hn
    rw [body]
    split
    · next m hm =>
      rw [hm] at hview
      exact List.forall_mem_cons.mpr ⟨(Malformed.complains_diagnostic hview).acyclic, ih f hns⟩
    · next s hs =>
      rw [hs] at hview
      obtain ⟨ds, hds, hfaults⟩ := f.statement_faults hview
      refine List.forall_mem_append.mpr ⟨?_, ih _ hns⟩
      rw [hfaults]
      exact List.forall_mem_append.mpr
        ⟨fun d hd => (hds d hd).acyclic, f.acyclic_again hview⟩

end Frame

namespace Tree

variable {t : Tree}

theorem all_declarations (h : ∀ n ∈ t.items, n.All P) : ∀ n ∈ t.declarations, n.All P :=
  fun n hn => h n (List.mem_of_mem_filter hn)

theorem all_functions (h : ∀ n ∈ t.items, n.All P) : ∀ f ∈ t.functions, f.All P := by
  intro f hf
  obtain ⟨n, hn, hf⟩ := List.mem_filterMap.mp hf
  have hview := Item.views_ofNode (all_declarations h n hn)
  split at hf
  · next g hg =>
    rw [hg] at hview
    cases hf
    exact hview
  · cases hf

end Tree

theorem Analysis.acyclic_bodies (symbols : SymbolTable) {t : Tree}
    (h : ∀ n ∈ t.items, n.All P) : ∀ d ∈ (bodies symbols t).1, d.Acyclic P := by
  intro d hd
  obtain ⟨x, hx, hd⟩ := List.mem_flatMap.mp hd
  obtain ⟨f, hf, rfl⟩ := List.mem_map.mp hx
  exact Frame.acyclic_body _ (Tree.all_functions h f hf).body d hd

/-- The tokens of a declaration, without those of a function's parameters. -/
def Declaration.tokens : Declaration → List Token
  | .alias name target => [name, target]
  | .global name type init => name :: type :: init.toList
  | .function name ret params => name :: ret :: params
  | .param _ _ name type => [name, type]

theorem Declaration.site_mem_tokens (d : Declaration) : d.site ∈ d.tokens := by
  cases d <;> exact List.mem_cons_self

theorem Item.all_declarations {i : Item} (h : i.All P) :
    ∀ d ∈ Declaration.ofItem i, ∀ t ∈ d.tokens, P t := by
  cases i with
  | type name target => simpa [Item.All, Declaration.ofItem, Declaration.tokens] using h
  | «global» name ty init => simpa [Item.All, Declaration.ofItem, Declaration.tokens] using h
  | finish eof => exact List.forall_mem_nil _
  | func f =>
    obtain ⟨hname, hparams, hret, -⟩ := h
    refine List.forall_mem_cons.mpr ⟨?_, fun d hd => ?_⟩
    · refine List.forall_mem_cons.mpr ⟨hname, List.forall_mem_cons.mpr ⟨hret, fun t ht => ?_⟩⟩
      obtain ⟨q, hq, rfl⟩ := List.mem_map.mp ht
      exact (hparams q hq).2
    · obtain ⟨⟨q, slot⟩, hq, rfl⟩ := List.mem_map.mp hd
      have hq := hparams q (List.fst_mem_of_mem_zipIdx hq)
      exact List.forall_mem_cons.mpr ⟨hq.1, List.forall_mem_singleton.mpr hq.2⟩

/-- What is found has tokens that satisfy a condition. -/
def Finding.All (P : Token → Prop) : Finding → Prop
  | .unreadable m => ∃ t, P t ∧ m.site = t.site
  | .declared d => ∀ t ∈ d.tokens, P t

theorem Tree.all_findings {t : Tree} (h : ∀ n ∈ t.items, n.All P) : ∀ x ∈ t.findings, x.All P := by
  have hviews : ∀ r ∈ t.declarations.map Item.ofNode, Views P (Item.All P) r := by
    intro r hr
    obtain ⟨n, hn, rfl⟩ := List.mem_map.mp hr
    exact Item.views_ofNode (all_declarations h n hn)
  intro x hx
  rcases List.mem_append.mp hx with hx | hx
  · obtain ⟨r, hr, hx⟩ := List.mem_filterMap.mp hx
    have hview := hviews r hr
    cases r <;> cases hx
    exact hview
  · obtain ⟨r, hr, hx⟩ := List.mem_flatMap.mp hx
    have hview := hviews r hr
    cases r with
    | error m => cases hx
    | ok i =>
      obtain ⟨d, hd, rfl⟩ := List.mem_map.mp hx
      exact Item.all_declarations hview d hd

section
variable {P : Nat → Token → Prop}

namespace Merged

theorem acyclic_merge (t : SymbolTable) {xs : List (Nat × Finding)}
    (h : ∀ x ∈ xs, x.2.All (P x.1)) :
    (∀ f ∈ (merge t xs).faults, f.diagnostic.Acyclic (P f.origin)) ∧
      ∀ a ∈ (merge t xs).accepted, ∀ t ∈ a.declaration.tokens, P a.origin t := by
  induction xs generalizing t with
  | nil => exact ⟨List.forall_mem_nil _, List.forall_mem_nil _⟩
  | cons x xs ih =>
    obtain ⟨hx, hxs⟩ := List.forall_mem_cons.mp h
    obtain ⟨i, x⟩ := x
    cases x with
    | unreadable m =>
      obtain ⟨hf, ha⟩ := ih t hxs
      have hm := (Malformed.complains_diagnostic hx).acyclic
      exact ⟨List.forall_mem_cons.mpr ⟨hm, hf⟩, ha⟩
    | declared d =>
      rw [merge]
      split
      · cases hn : t.get? d.key with
        | none =>
          rw [enroll_of_none hn]
          obtain ⟨hf, ha⟩ := ih (t.declareNew d.symbol) hxs
          exact ⟨hf, List.forall_mem_cons.mpr ⟨hx, ha⟩⟩
        | some first =>
          rw [enroll_of_some hn]
          obtain ⟨hf, ha⟩ := ih t hxs
          have hd := acyclic_duplicate (hx _ d.site_mem_tokens) first.site
          exact ⟨List.forall_mem_cons.mpr ⟨hd, hf⟩, ha⟩
      · exact ih t hxs

end Merged

namespace Aliases

/-- The tokens of aliases satisfy the condition of their files. -/
structure Within (P : Nat → Token → Prop) (a : Aliases) : Prop where
  named : ∀ {x s}, a.symbols.get? x = some s → s.name = x
  target : ∀ {x : String} {u : AliasTarget}, a.targets[x]? = some u → P u.origin u.token
  site : ∀ {x : String} {u : AliasTarget} {s}, a.targets[x]? = some u →
    a.symbols.get? x = some s → ∃ t, P u.origin t ∧ s.site = t.site

theorem isDuplicate_cyclic (s : Symbol) : (cyclic s).isDuplicate = false := by
  simp [cyclic, isDuplicate, opens, error, toString, List.isPrefixOf]

theorem unrepeated_walk {a : Aliases} (ha : a.Within P) (fuel : Nat) (path : AliasPath) {i : Nat}
    {t : Token} (ht : P i t) :
    ∀ f ∈ (a.walk fuel path i t).fault.toList, f.diagnostic.Unrepeated (P f.origin) := by
  fun_induction walk a fuel path i t with
  | case1 => exact List.forall_mem_nil _
  | case2 => exact List.forall_mem_singleton.mpr (TypeName.complains_unknownType ht).unrepeated
  | case3 =>
    exact List.forall_mem_singleton.mpr ((TypeName.complains_notType ht _).withNote _ _).unrepeated
  | case4 => exact List.forall_mem_nil _
  | case5 path i t s hs target fuel hu =>
    have hget := get?_of_ofToken hs
    have hname := ha.named hget
    obtain ⟨u, hu, hsite⟩ := ha.site hu (hname ▸ hget)
    have hstands : (cyclic s).Stands (P target.origin) := ⟨rfl, u, hu, congrArg Place.site hsite⟩
    exact List.forall_mem_singleton.mpr ⟨hstands, isDuplicate_cyclic s⟩
  | case6 path i t s _ target fuel hu _ _ ih => exact ih (ha.target hu)
  | case7 => exact List.forall_mem_nil _

/-- Resolving keeps the targets. -/
theorem unrepeated_resolve {a : Aliases} (ha : a.Within P) {i : Nat} {t : Token} (ht : P i t) :
    (∀ f ∈ (a.resolve i t).2.1, f.diagnostic.Unrepeated (P f.origin)) ∧
      (a.resolve i t).2.2.Within P :=
  ⟨unrepeated_walk ha _ _ ht, ⟨ha.named, ha.target, ha.site⟩⟩

theorem unrepeated_resolveAlias {a : Aliases} (ha : a.Within P) (name : String) :
    (∀ f ∈ (a.resolveAlias name).2.1, f.diagnostic.Unrepeated (P f.origin)) ∧
      (a.resolveAlias name).2.2.Within P := by
  unfold resolveAlias
  split
  · exact ⟨List.forall_mem_nil _, ha⟩
  · next target _ hu =>
    exact ⟨unrepeated_walk ha _ _ (ha.target hu), ⟨ha.named, ha.target, ha.site⟩⟩
  · exact ⟨List.forall_mem_nil _, ha⟩

theorem unrepeated_resolveAll {a : Aliases} (ha : a.Within P) {i : Nat} {ts : List Token}
    (hts : ∀ t ∈ ts, P i t) :
    (∀ f ∈ (a.resolveAll i ts).2.1, f.diagnostic.Unrepeated (P f.origin)) ∧
      (a.resolveAll i ts).2.2.Within P := by
  induction ts generalizing a with
  | nil => exact ⟨List.forall_mem_nil _, ha⟩
  | cons t ts ih =>
    obtain ⟨ht, hts⟩ := List.forall_mem_cons.mp hts
    obtain ⟨hf, ha⟩ := unrepeated_resolve ha ht
    obtain ⟨hfs, ha⟩ := ih ha hts
    exact ⟨List.forall_mem_append.mpr ⟨hf, hfs⟩, ha⟩

/-- Symbol and target of an accepted alias are those of one declaration. -/
theorem within_start {xs : List (Nat × Finding)}
    (h : ∀ a ∈ (Merged.merge .empty xs).accepted, ∀ t ∈ a.declaration.tokens, P a.origin t) :
    (Resolution.start (Merged.merge .empty xs)).aliases.Within P := by
  constructor
  · intro x s hs
    obtain ⟨a, -, rfl, rfl⟩ := Merged.accepted_of_get? hs
    rfl
  · intro x u hu
    obtain ⟨name, ha, -⟩ := Merged.alias_of_target hu
    exact h _ ha u.token (List.mem_cons_of_mem _ List.mem_cons_self)
  · intro x u s hu hs
    obtain ⟨name, ha, rfl⟩ := Merged.alias_of_target hu
    obtain rfl := Option.some.inj ((Merged.get?_of_accepted ha).symm.trans hs)
    exact ⟨name, h _ ha name List.mem_cons_self, rfl⟩

end Aliases

namespace Resolution

theorem allComplain_checkInit {Q : Token → Prop} (name : Token) (ty : Option Ty)
    {init : Option Token} (h : ∀ u ∈ init, Q u) : AllComplain Q (checkInit name ty init) := by
  unfold checkInit
  split
  · next ty u =>
    have hu := h u rfl
    exact AllComplain.append.mpr ⟨allComplain_literalFaults hu,
      allComplain_mismatch (complains_initMismatch _ hu)⟩
  · exact .nil

theorem unrepeated_step {r : Resolution} (hr : r.aliases.Within P) {d : Accepted}
    (hd : ∀ t ∈ d.declaration.tokens, P d.origin t) :
    (∀ f ∈ (r.step d).2.1, f.diagnostic.Unrepeated (P f.origin)) ∧
      (r.step d).2.2.aliases.Within P := by
  obtain ⟨i, d⟩ := d
  cases d with
  | «alias» name target => exact Aliases.unrepeated_resolveAlias hr name.lexeme
  | «global» name type init =>
    obtain ⟨-, htype, hinit⟩ : _ ∧ P i type ∧ ∀ u ∈ init, P i u := by
      simpa [Declaration.tokens] using hd
    obtain ⟨hf, ha⟩ := Aliases.unrepeated_resolve hr htype
    refine ⟨List.forall_mem_append.mpr ⟨hf, fun f hm => ?_⟩, ha⟩
    obtain ⟨d, hc, rfl⟩ := List.mem_map.mp hm
    exact (allComplain_checkInit name _ hinit d hc).unrepeated
  | function name ret params =>
    obtain ⟨-, hrest⟩ := List.forall_mem_cons.mp hd
    obtain ⟨hret, hparams⟩ := List.forall_mem_cons.mp hrest
    obtain ⟨hf, ha⟩ := Aliases.unrepeated_resolve hr hret
    obtain ⟨hfs, ha⟩ := Aliases.unrepeated_resolveAll ha hparams
    exact ⟨List.forall_mem_append.mpr ⟨hf, hfs⟩, ha⟩
  | param owner slot name type => exact ⟨List.forall_mem_nil _, hr⟩

theorem unrepeated_steps {r : Resolution} (hr : r.aliases.Within P) {ds : List Accepted}
    (hd : ∀ d ∈ ds, ∀ t ∈ d.declaration.tokens, P d.origin t) :
    ∀ x ∈ r.steps ds, ∀ f ∈ x.2, f.diagnostic.Unrepeated (P f.origin) := by
  induction ds generalizing r with
  | nil => exact List.forall_mem_nil _
  | cons d ds ih =>
    obtain ⟨hd, hds⟩ := List.forall_mem_cons.mp hd
    obtain ⟨hf, hr⟩ := unrepeated_step hr hd
    exact List.forall_mem_cons.mpr ⟨hf, ih hr hds⟩

end Resolution

namespace Merged

variable {files : List (Nat × Tree)} (h : ∀ x ∈ files, ∀ n ∈ x.2.items, n.All (P x.1))
include h

theorem acyclic_ofFiles :
    (∀ f ∈ (ofFiles files).faults, f.diagnostic.Acyclic (P f.origin)) ∧
      ∀ a ∈ (ofFiles files).accepted, ∀ t ∈ a.declaration.tokens, P a.origin t := by
  refine acyclic_merge .empty fun x hx => ?_
  obtain ⟨file, hfile, hx⟩ := List.mem_flatMap.mp hx
  obtain ⟨y, hy, rfl⟩ := List.mem_map.mp hx
  exact Tree.all_findings (h file hfile) y hy

theorem unrepeated_resolved :
    ∀ f ∈ (ofFiles files).resolved.flatMap (·.2), f.diagnostic.Unrepeated (P f.origin) := by
  intro f hf
  obtain ⟨-, haccepted⟩ := acyclic_ofFiles h
  obtain ⟨x, hx, hf⟩ := List.mem_flatMap.mp hf
  exact Resolution.unrepeated_steps (Aliases.within_start haccepted) haccepted x hx f hf

end Merged

namespace Analysis

/-- Every fault is an error at a token of its file. -/
theorem stands_ofFiles {files : List (Nat × Tree)}
    (h : ∀ x ∈ files, ∀ n ∈ x.2.items, n.All (P x.1)) :
    ∀ f ∈ (ofFiles files).faults, f.diagnostic.Stands (P f.origin) := by
  intro f hf
  rcases List.mem_append.mp hf with hf | hf
  · rcases List.mem_append.mp hf with hf | hf
    · exact ((Merged.acyclic_ofFiles h).1 f hf).1
    · exact (Merged.unrepeated_resolved h f hf).1
  · obtain ⟨x, hx, hf⟩ := List.mem_flatMap.mp hf
    obtain ⟨file, hfile, rfl⟩ := List.mem_map.mp hx
    obtain ⟨d, hd, rfl⟩ := List.mem_map.mp hf
    exact (acyclic_bodies _ (h file hfile) d hd).1

/-- Every fault is an error of a file of the batch. -/
theorem placed_ofFiles (files : List (Nat × Tree)) :
    ∀ f ∈ (ofFiles files).faults, f.diagnostic.isError = true ∧ f.origin ∈ files.map (·.1) := by
  intro f hf
  obtain ⟨herror, t, horigin, -⟩ := stands_ofFiles (P := fun i _ => i ∈ files.map (·.1))
    (fun x hx n _ => n.all_of_forall fun _ => List.mem_map_of_mem hx) f hf
  exact ⟨herror, horigin⟩

theorem valid_iff_no_faults (files : List (Nat × Tree)) :
    (ofFiles files).valid = true ↔ (ofFiles files).faults = [] := by
  rw [valid, Bool.not_eq_true', List.any_eq_false]
  constructor
  · intro h
    refine List.eq_nil_iff_forall_not_mem.mpr fun f hf => ?_
    exact h f.diagnostic (List.mem_map_of_mem hf) (placed_ofFiles files f hf).1
  · intro h
    simp [diagnostics, h]

end Analysis

end

end ThreeAddress

