import ThreeAddress.Proofs.Typing

namespace ThreeAddress

/-- Names and values of a statement are as a source writes them. -/
structure Stmt.Written (s : Stmt) : Prop where
  names : ∀ u ∈ s.names, ':' ∉ u.lexeme.toList
  values : ∀ u ∈ s.values, u.IsValue

namespace Frame

/-- Statements from top to bottom: their problems and their locals. -/
def statements (f : Frame) : List Stmt → List Diagnostic × List Symbol
  | [] => ([], [])
  | s :: ss =>
    let (f, faults, declared) := f.statement s
    let (more, others) := f.statements ss
    (faults ++ more, declared ++ others)

theorem body_eq_statements (f : Frame) {ns : List Node} {ss : List Stmt}
    (h : ns.mapM Stmt.ofNode = .ok ss) : f.body ns = f.statements ss := by
  have hall := forall₂_of_mapM h
  clear h
  induction hall generalizing f with
  | nil => rfl
  | cons h _ ih =>
    rw [body, h, statements]
    simp only [ih]

/-- A frame stands inside a function, with the parameters and locals in sight. -/
structure Knows (f : Frame) (t : SymbolTable) (p : Program) (r : Routine) (Γ : Program.Locals) :
    Prop where
  func : f.func = r.name
  ret : ∃ ty, f.ret = some ty ∧ p.Denotes r.ret ty
  scope : f.scope.Shows t Γ

/-- Symbols are those of locals with the types that the locals are declared with. -/
abbrev Declares (p : Program) (func : Token) : List (Token × Token) → List Symbol → Prop :=
  List.Forall₂ fun v s => ∃ ty, p.Denotes v.2 ty ∧ s = localSymbol func v.1 (some ty)

variable {f : Frame} {t : SymbolTable} {p : Program} {r : Routine} {Γ Γ' : Program.Locals}

theorem declare_of_none (hf : f.Knows t p r Γ) {name type : Token} {ty : Ty}
    (hn : Γ.lookup name.lexeme = none) (ht : p.Denotes type ty) :
    ∃ f' ds, f.declare name (some ty) = (f', [], ds) ∧
      f'.Knows t p r (Γ ++ [(name.lexeme, ty)]) ∧ Declares p r.name [(name, type)] ds := by
  have hl := hf.scope.of_none hn
  refine ⟨{ f with scope := f.scope.add name.lexeme ⟨some ty, name.site⟩ },
    [localSymbol f.func name (some ty)], ?_, ?_, ?_⟩
  · rw [declare, hl]
  · exact ⟨hf.func, hf.ret, hf.scope.add hn ty name.site⟩
  · exact .cons ⟨ty, ht, by rw [hf.func]⟩ .nil

theorem lookup_of_declare (hf : f.Knows t p r Γ) {name : Token} {ty : Option Ty}
    (h : (f.declare name ty).2.1 = []) : Γ.lookup name.lexeme = none := by
  unfold declare at h
  cases hl : f.scope.locals[name.lexeme]? with
  | some first => simp [hl] at h
  | none => exact hf.scope.lookup_of_none hl

/-- The locals of a statement are new. -/
def Fresh (Γ : Program.Locals) (s : Stmt) : Prop := ∀ v ∈ s.declared, Γ.lookup v.1.lexeme = none

theorem statement_complete (hd : t.Describes p) (hf : f.Knows t p r Γ) {s : Stmt}
    (hw : s.Written) (h : p.Fits r.ret Γ s Γ') (hn : Fresh Γ s) (hr : ∀ u ∈ s.values, u.InRange) :
    ∃ f' ds, f.statement s = (f', [], ds) ∧ f'.Knows t p r Γ' ∧
      Declares p r.name s.declared ds := by
  have hc := hf.scope
  cases h with
  | @declare name type ty ht =>
    obtain ⟨f', ds, hdecl, hf', hds⟩ :=
      declare_of_none hf (hn (name, type) List.mem_cons_self) ht
    refine ⟨f', ds, ?_, hf', hds⟩
    simp only [statement, hc.symbols, hd.lookup_of_denotes ht, hdecl]
    rfl
  | @init name type e ty ht he =>
    obtain ⟨f', ds, hdecl, hf', hds⟩ :=
      declare_of_none hf (hn (name, type) List.mem_cons_self) ht
    have hinfer := Scope.infer_complete hd hc hw.values he hr
    refine ⟨f', ds, ?_, hf', hds⟩
    simp only [statement, hc.symbols, hd.lookup_of_denotes ht, hdecl, Scope.examine_eq_infer,
      hinfer, mismatch_eq_nil_iff.mpr, List.append_nil]
  | @assign target e ty ht he =>
    have hinfer := Scope.infer_complete hd hc hw.values he hr
    refine ⟨f, [], ?_, hf, .nil⟩
    simp only [statement, Scope.examine_eq_infer, hinfer, Scope.target_of_variable hd hc ht,
      mismatch_eq_nil_iff.mpr, List.append_nil]
  | @call callee args ty h =>
    have hcall : f.scope.call callee args = (some ty, []) :=
      Scope.call_complete hd hc hw.values h hr
    refine ⟨f, [], ?_, hf, .nil⟩
    rw [statement, hcall]
  | @ret keyword e ty ht he =>
    obtain ⟨ty', hty, ht'⟩ := hf.ret
    have hinfer := Scope.infer_complete hd hc hw.values he hr
    refine ⟨f, [], ?_, hf, .nil⟩
    simp only [statement, Scope.examine_eq_infer, hinfer, hty, hd.unique ht ht',
      mismatch_eq_nil_iff.mpr, List.append_nil]

theorem statement_sound (hd : t.Describes p) (hf : f.Knows t p r Γ) {s : Stmt} (hw : s.Written)
    (h : (f.statement s).2.1 = []) :
    ∃ Γ', p.Fits r.ret Γ s Γ' ∧ Fresh Γ s ∧ ∀ u ∈ s.values, u.InRange := by
  have hc := hf.scope
  cases s with
  | «local» name type init =>
    simp only [statement, hc.symbols, List.append_eq_nil_iff] at h
    obtain ⟨⟨hbad, hinit⟩, hdecl⟩ := h
    cases hl : TypeName.lookup t type with
    | error d => simp [hl] at hbad
    | ok o =>
      obtain ⟨ty, rfl, ht⟩ := hd.denotes_of_lookup hl
      simp only [hl] at hinit hdecl
      have hnew : Fresh Γ (.local name type init) := by
        intro v hv
        obtain rfl := List.mem_singleton.mp hv
        exact lookup_of_declare hf hdecl
      cases init with
      | none => exact ⟨_, .declare ht, hnew, List.forall_mem_nil _⟩
      | some e =>
        simp only [Scope.examine_eq_infer, List.append_eq_nil_iff] at hinit
        obtain ⟨ty', hty, he, hr⟩ := Scope.infer_sound hd hc hw.values
          (fun u hu => hw.names u (List.mem_cons_of_mem name hu)) hinit.1
        rw [hty] at hinit
        obtain rfl := mismatch_eq_nil_iff.mp hinit.2
        exact ⟨_, .init ht he, hnew, hr⟩
  | assign target e =>
    simp only [statement, Scope.examine_eq_infer, List.append_eq_nil_iff] at h
    obtain ⟨⟨htarget, hinfer⟩, hmis⟩ := h
    obtain ⟨ty, hty, ht⟩ :=
      Scope.variable_of_target hd hc (hw.names target List.mem_cons_self) htarget
    obtain ⟨ty', hty', he, hr⟩ := Scope.infer_sound hd hc hw.values
      (fun u hu => hw.names u (List.mem_cons_of_mem target hu)) hinfer
    rw [hty, hty'] at hmis
    obtain rfl := mismatch_eq_nil_iff.mp hmis
    exact ⟨Γ, .assign ht he, List.forall_mem_nil _, hr⟩
  | call callee args =>
    obtain ⟨ty, -, ht, hr⟩ :=
      Scope.call_sound hd hc (hw.names callee List.mem_cons_self) hw.values h
    exact ⟨Γ, .call ht, List.forall_mem_nil _, hr⟩
  | ret keyword e =>
    simp only [statement, Scope.examine_eq_infer, List.append_eq_nil_iff] at h
    obtain ⟨ty, hty, ht⟩ := hf.ret
    obtain ⟨ty', hty', he, hr⟩ := Scope.infer_sound hd hc hw.values hw.names h.1
    rw [hty, hty'] at h
    obtain rfl := mismatch_eq_nil_iff.mp h.2
    exact ⟨Γ, .ret ht he, List.forall_mem_nil _, hr⟩

/-- The names in sight grow by the locals of a statement. -/
theorem names_of_fits {ret : Token} {s : Stmt} (h : p.Fits ret Γ s Γ') :
    Γ'.map (·.1) = Γ.map (·.1) ++ s.declared.map (·.1.lexeme) := by
  cases h <;> simp [Stmt.declared]

theorem lookup_eq_none_iff {x : String} : Γ.lookup x = none ↔ x ∉ Γ.map (·.1) := by
  rw [List.lookup_eq_none_iff, List.mem_map, not_exists]
  refine forall_congr' fun v => ?_
  rw [not_and, bne_iff_ne]
  exact imp_congr_right fun _ => ne_comm

theorem fresh_iff {s : Stmt} (hΓ : (Γ.map (·.1)).Nodup) :
    Fresh Γ s ↔ (Γ.map (·.1) ++ s.declared.map (·.1.lexeme)).Nodup := by
  simp only [Fresh, lookup_eq_none_iff]
  cases s with
  | «local» name type init =>
    simp only [Stmt.declared, List.mem_singleton, forall_eq, List.map_cons, List.map_nil]
    rw [List.nodup_append, and_iff_right hΓ, and_iff_right (List.nodup_singleton _)]
    constructor
    · intro h a ha b hb hab
      rw [List.mem_singleton] at hb
      exact h (hb ▸ hab ▸ ha)
    · intro h hm
      exact h _ hm _ (List.mem_singleton_self _) rfl
  | _ => simp [Stmt.declared, hΓ]

/-- The names of parameters and earlier locals, then those of the locals of statements. -/
abbrev namesOver (Γ : Program.Locals) (ss : List Stmt) : List String :=
  Γ.map (·.1) ++ (ss.flatMap Stmt.declared).map (·.1.lexeme)

theorem namesOver_cons {ret : Token} {s : Stmt} {ss : List Stmt} (h : p.Fits ret Γ s Γ') :
    namesOver Γ (s :: ss) = namesOver Γ' ss := by
  simp [namesOver, names_of_fits h]

theorem statements_complete (hd : t.Describes p) (hf : f.Knows t p r Γ) {ss : List Stmt}
    (hw : ∀ s ∈ ss, s.Written) (h : p.BodyFits r.ret Γ ss) (hn : (namesOver Γ ss).Nodup)
    (hr : ∀ s ∈ ss, ∀ u ∈ s.values, u.InRange) :
    ∃ ds, f.statements ss = ([], ds) ∧ Declares p r.name (ss.flatMap Stmt.declared) ds := by
  induction h generalizing f with
  | nil => exact ⟨[], rfl, .nil⟩
  | @cons Γ Γ' s ss h _ ih =>
    obtain ⟨hw, hws⟩ := List.forall_mem_cons.mp hw
    obtain ⟨hr, hrs⟩ := List.forall_mem_cons.mp hr
    rw [namesOver_cons h] at hn
    have hΓ' : (Γ'.map (·.1)).Nodup := (List.nodup_append.mp hn).1
    rw [names_of_fits h] at hΓ'
    have hnew := (fresh_iff (List.nodup_append.mp hΓ').1).mpr hΓ'
    obtain ⟨f', ds, hs, hf', hds⟩ := statement_complete hd hf hw h hnew hr
    obtain ⟨es, hss, hes⟩ := ih hf' hws hn hrs
    refine ⟨ds ++ es, ?_, List.rel_append hds hes⟩
    simp only [statements, hs, hss, List.append_nil]

theorem statements_sound (hd : t.Describes p) (hf : f.Knows t p r Γ) {ss : List Stmt}
    (hw : ∀ s ∈ ss, s.Written) (hΓ : (Γ.map (·.1)).Nodup) (h : (f.statements ss).1 = []) :
    p.BodyFits r.ret Γ ss ∧ (namesOver Γ ss).Nodup ∧ ∀ s ∈ ss, ∀ u ∈ s.values, u.InRange := by
  induction ss generalizing f Γ with
  | nil => exact ⟨.nil, by simpa [namesOver] using hΓ, List.forall_mem_nil _⟩
  | cons s ss ih =>
    obtain ⟨hw, hws⟩ := List.forall_mem_cons.mp hw
    simp only [statements, List.append_eq_nil_iff] at h
    obtain ⟨Γ', hfits, hnew, hr⟩ := statement_sound hd hf hw h.1
    obtain ⟨f', ds, hs, hf', -⟩ := statement_complete hd hf hw hfits hnew hr
    rw [hs] at h
    have hΓ' : (Γ'.map (·.1)).Nodup := by
      rw [names_of_fits hfits]
      exact (fresh_iff hΓ).mp hnew
    obtain ⟨hbody, hn, hrs⟩ := ih hf' hws hΓ' h.2
    refine ⟨.cons hfits hbody, ?_, List.forall_mem_cons.mpr ⟨hr, hrs⟩⟩
    rw [namesOver_cons hfits]
    exact hn

end Frame

namespace Routine

variable {t : SymbolTable} {p : Program} {r : Routine}

theorem function_mem_declarations (r : Routine) :
    .function r.name r.ret (r.params.map (·.type)) ∈ (Decl.routine r).declarations :=
  List.mem_cons_self

theorem param_mem_declarations {q : Param} (hq : q ∈ r.params) :
    ∃ slot, .param r.name slot q.name q.type ∈ (Decl.routine r).declarations := by
  obtain ⟨slot, hslot⟩ := List.mem_iff_getElem?.mp hq
  refine ⟨slot, List.mem_cons_of_mem _ (List.mem_map.mpr ⟨(q, slot), ?_, rfl⟩)⟩
  exact List.mem_zipIdx_iff_getElem?.mpr hslot

theorem opens_unique (hd : t.Describes p) {qs : List Param} {Γ Γ' : Program.Locals}
    (h : p.Opens qs Γ) (h' : p.Opens qs Γ') : Γ = Γ' := by
  unfold Program.Opens at h h'
  induction h generalizing Γ' with
  | nil =>
    cases h'
    rfl
  | cons hv _ ih =>
    cases h' with
    | cons hv' h' =>
      obtain rfl := ih h'
      obtain rfl := Prod.ext (hv.1.trans hv'.1.symm) (hd.unique hv.2 hv'.2)
      rfl

theorem names_of_opens {qs : List Param} {Γ : Program.Locals} (h : p.Opens qs Γ) :
    Γ.map (·.1) = qs.map (·.name.lexeme) := by
  unfold Program.Opens at h
  induction h with
  | nil => rfl
  | cons hv _ ih => rw [List.map_cons, List.map_cons, hv.1, ih]

/-- Parameters come into scope with their types. -/
theorem shows_params (hd : t.Describes p) (hm : .routine r ∈ p) {c : Scope} {Γ : Program.Locals}
    (hc : c.Shows t Γ) {qs : List Param} (hq : ∀ q ∈ qs, q ∈ r.params)
    (hn : (Γ.map (·.1) ++ qs.map (·.name.lexeme)).Nodup) :
    ∃ Δ, p.Opens qs Δ ∧
      Scope.Shows (qs.foldl (fun c q =>
        match t.local? r.name.lexeme q.name.lexeme with
        | some s => if s.site = q.name.site then c.add q.name.lexeme ⟨s.ty, q.name.site⟩ else c
        | none => c) c) t (Γ ++ Δ) := by
  induction qs generalizing c Γ with
  | nil => exact ⟨[], .nil, by simpa using hc⟩
  | cons q qs ih =>
    obtain ⟨hqr, hqs⟩ := List.forall_mem_cons.mp hq
    obtain ⟨slot, hmem⟩ := param_mem_declarations hqr
    obtain ⟨s, hs⟩ := hd.entry _ hm _ hmem
    obtain ⟨ty, hty, ht⟩ := hs.type
    have hlocal : t.local? r.name.lexeme q.name.lexeme = some s := hs.get
    have hsite : s.site = q.name.site := hs.site
    have hnone : Γ.lookup q.name.lexeme = none := by
      refine Frame.lookup_eq_none_iff.mpr fun hx => ?_
      exact (List.nodup_append.mp hn).2.2 _ hx _ List.mem_cons_self rfl
    have hc' := hc.add hnone ty q.name.site
    have hn' : ((Γ ++ [(q.name.lexeme, ty)]).map (·.1) ++ qs.map (·.name.lexeme)).Nodup := by
      simpa using hn
    obtain ⟨Δ, hΔ, hshow⟩ := ih hc' hqs hn'
    refine ⟨(q.name.lexeme, ty) :: Δ, .cons ⟨rfl, ht⟩ hΔ, ?_⟩
    simpa only [List.foldl_cons, hlocal, hsite, if_true, hty, List.append_assoc,
      List.singleton_append] using hshow

/-- What a function's body has to satisfy. -/
structure Sound (p : Program) (r : Routine) : Prop where
  bindings : (r.bindings.map (·.1.lexeme)).Nodup
  literals : ∀ s ∈ r.body, ∀ u ∈ s.values, u.InRange
  body : ∃ Γ, p.Opens r.params Γ ∧ p.BodyFits r.ret Γ r.body

theorem namesOver_of_opens {Γ : Program.Locals} (h : p.Opens r.params Γ) :
    Frame.namesOver Γ r.body = r.bindings.map (·.1.lexeme) := by
  simp [Frame.namesOver, names_of_opens h, bindings]

theorem written (hw : p.Written) (hm : .routine r ∈ p) : ∀ s ∈ r.body, s.Written := by
  intro s hs
  constructor
  · intro u hu
    refine hw.names _ hm u (List.mem_append_right _ ?_)
    exact List.mem_flatMap.mpr ⟨s, hs, hu⟩
  · intro u hu
    exact hw.values _ hm u (List.mem_flatMap.mpr ⟨s, hs, hu⟩)

/-- Checking a function starts with its parameters in sight. -/
theorem check_eq (hd : t.Describes p) (hm : .routine r ∈ p)
    (hn : (r.params.map (·.name.lexeme)).Nodup) {f : Function} (hf : f.routine = .ok r) :
    ∃ F Γ, p.Opens r.params Γ ∧ Frame.Knows F t p r Γ ∧ f.check t = F.statements r.body := by
  obtain ⟨hname, hparams, hret, hbody⟩ := Function.routine_eq_ok hf
  obtain ⟨s, hs⟩ := hd.entry _ hm _ r.function_mem_declarations
  have hget : t.get? r.name.lexeme = some s := hs.get
  have hacc : f.isAccepted t = true := by
    have hk : s.kind = .function := hs.kind
    have hsite : s.site = r.name.site := hs.site
    simp [Function.isAccepted, ← hname, hget, Symbol.isFunctionAt, hk, hsite]
  have hempty : Scope.Shows ⟨t, {}⟩ t [] := ⟨rfl, fun x => by simp⟩
  obtain ⟨Γ, hΓ, hshow⟩ := shows_params hd hm hempty (fun q hq => hq) (by simpa using hn)
  refine ⟨⟨f.name, (Scope.ofSymbols t f).1, (Scope.ofSymbols t f).2⟩, Γ, hΓ, ⟨hname.symm, ?_, ?_⟩, ?_⟩
  · obtain ⟨ty, hty, ht⟩ := hs.type
    refine ⟨ty, ?_, ht⟩
    simp [Scope.ofSymbols, ← hname, hget, hty]
  · simp only [Scope.ofSymbols, ← hname, ← hparams]
    exact hshow
  · simp only [Function.check, Function.opening, hacc, if_true, Frame.body_eq_statements _ hbody]

theorem check_complete (hd : t.Describes p) (hw : p.Written) (hm : .routine r ∈ p)
    {f : Function} (hf : f.routine = .ok r) (h : r.Sound p) :
    ∃ ds, f.check t = ([], ds) ∧ Frame.Declares p r.name (r.body.flatMap Stmt.declared) ds := by
  obtain ⟨Γ, hΓ, hbody⟩ := h.body
  have hn : (r.params.map (·.name.lexeme)).Nodup := by
    have := h.bindings
    simp only [bindings, List.map_append, List.map_map] at this
    exact (List.nodup_append.mp this).1
  obtain ⟨F, Δ, hΔ, hF, hcheck⟩ := check_eq hd hm hn hf
  obtain rfl := opens_unique hd hΓ hΔ
  rw [hcheck]
  refine Frame.statements_complete hd hF (written hw hm) hbody ?_ h.literals
  rw [namesOver_of_opens hΓ]
  exact h.bindings

theorem check_sound (hd : t.Describes p) (hw : p.Written) (hm : .routine r ∈ p)
    (hn : (r.params.map (·.name.lexeme)).Nodup) {f : Function} (hf : f.routine = .ok r)
    (h : (f.check t).1 = []) : r.Sound p := by
  obtain ⟨F, Γ, hΓ, hF, hcheck⟩ := check_eq hd hm hn hf
  rw [hcheck] at h
  have hnΓ : (Γ.map (·.1)).Nodup := by
    rw [names_of_opens hΓ]
    exact hn
  obtain ⟨hbody, hnames, hlit⟩ := Frame.statements_sound hd hF (written hw hm) hnΓ h
  rw [namesOver_of_opens hΓ] at hnames
  exact ⟨hnames, hlit, Γ, hΓ, hbody⟩

end Routine

end ThreeAddress
