import ThreeAddress.Proofs.Splitting

namespace ThreeAddress

/-- Every symbol of a table stands under its own name. -/
def SymbolTable.Named (t : SymbolTable) : Prop := ∀ x s, t.get? x = some s → s.name = x

namespace SymbolTable

variable {t : SymbolTable}

theorem named_empty : empty.Named := by
  intro x s hs
  simp at hs

theorem Named.declareNew (h : t.Named) (s : Symbol) : (t.declareNew s).Named := by
  intro x s' hs
  rw [get?_declareNew, Option.or_eq_some_iff] at hs
  rcases hs with hs | ⟨-, hs⟩
  · exact h x s' hs
  · split at hs
    · next hx =>
      obtain rfl := Option.some.inj hs
      exact hx
    · cases hs

theorem Named.setTypes (h : t.Named) (key : String) (ty : Option Ty) (params : List (Option Ty)) :
    (t.setTypes key ty params).Named := by
  intro x s hs
  rw [get?_setTypes, Option.map_eq_some_iff] at hs
  obtain ⟨s', hs', rfl⟩ := hs
  have hname := h x s' hs'
  split <;> exact hname

end SymbolTable

namespace Merged

theorem named_merge {t : SymbolTable} (h : t.Named) (xs : List (Nat × Finding)) :
    (merge t xs).symbols.Named := by
  induction xs generalizing t with
  | nil => exact h
  | cons x xs ih =>
    obtain ⟨i, x⟩ := x
    cases x with
    | unreadable m => exact ih h
    | declared d =>
      rw [merge]
      split
      · cases hd : t.get? d.key with
        | none =>
          rw [enroll_of_none hd]
          exact ih (h.declareNew d.symbol)
        | some first =>
          rw [enroll_of_some hd]
          exact ih h
      · exact ih h

theorem named_typedSymbols {m : Merged} (h : m.symbols.Named) : m.typedSymbols.Named := by
  unfold typedSymbols
  generalize m.symbols = t at h
  induction m.resolved generalizing t with
  | nil => exact h
  | cons r rs ih => exact ih _ (h.setTypes r.1.key r.1.ty r.1.params)

theorem named_ofFiles (files : List (Nat × Tree)) : (ofFiles files).typedSymbols.Named :=
  named_typedSymbols (named_merge SymbolTable.named_empty _)

end Merged

namespace Program

/-- The symbols of a program: those of its declarations and of the locals of its functions, with the
types that their tokens denote. -/
inductive HasSymbol (p : Program) : Symbol → Prop
  | header {d : Decl} {e : Declaration} {ty : Ty} {tys : List Ty} (hd : d ∈ p)
    (he : e ∈ d.declarations) (ht : p.Denotes e.type ty)
    (hps : List.Forall₂ p.Denotes e.paramTypes tys) :
    HasSymbol p { e.symbol with ty := some ty, params := tys.map some }
  | local {r : Routine} {v : Token × Token} {ty : Ty} (hr : .routine r ∈ p)
    (hv : v ∈ r.body.flatMap Stmt.declared) (ht : p.Denotes v.2 ty) :
    HasSymbol p (Frame.localSymbol r.name v.1 (some ty))

/-- More declarations leave a symbol as it is. -/
theorem HasSymbol.mono {p q : Program} (h : p ⊆ q) {s : Symbol} (hs : p.HasSymbol s) :
    q.HasSymbol s := by
  have hdenotes (t : Token) (ty : Ty) (ht : p.Denotes t ty) : q.Denotes t ty :=
    ht.within (within_of_subset h) rfl
  cases hs with
  | header hd he ht hps => exact .header (h hd) he (hdenotes _ _ ht) (hps.imp hdenotes)
  | «local» hr hv ht => exact .local (h hr) hv (hdenotes _ _ ht)

end Program

/-- An entry is the symbol of its declaration with the types filled in. -/
theorem SymbolTable.Entry.eq {t : SymbolTable} {p : Program} {e : Declaration} {s : Symbol}
    (h : t.Entry p e s) (hn : t.Named) {ty : Ty} (hty : s.ty = some ty) {tys : List Ty}
    (htys : s.params = tys.map some) :
    s = { e.symbol with ty := some ty, params := tys.map some } := by
  have hname : s.name = e.key := hn _ _ h.get
  have hkind := h.kind
  have hsite := h.site
  cases s
  simp only at hname hkind hsite hty htys
  rw [hname, hkind, hsite, hty, htys]
  rfl

namespace SymbolTable.Describes

variable {t : SymbolTable} {p : Program} (h : t.Describes p) (hn : t.Named)
include h hn

theorem hasSymbol_of_get? {x : String} {s : Symbol} (hs : t.get? x = some s) : p.HasSymbol s := by
  obtain ⟨d, hd, e, he, rfl⟩ := h.only x s hs
  obtain ⟨s', hs'⟩ := h.entry d hd e he
  obtain rfl : s = s' := Option.some.inj (hs.symm.trans hs'.get)
  obtain ⟨ty, hty, ht⟩ := hs'.type
  obtain ⟨tys, htys, hps⟩ := hs'.params
  rw [hs'.eq hn hty htys]
  exact .header hd he ht hps

/-- The symbol of a declaration is found under its name. -/
theorem get?_header {d : Decl} (hd : d ∈ p) {e : Declaration} (he : e ∈ d.declarations) {ty : Ty}
    (ht : p.Denotes e.type ty) {tys : List Ty} (hps : List.Forall₂ p.Denotes e.paramTypes tys) :
    t.get? e.key = some { e.symbol with ty := some ty, params := tys.map some } := by
  obtain ⟨s, hs⟩ := h.entry d hd e he
  obtain ⟨ty', hty, ht'⟩ := hs.type
  obtain ⟨tys', htys, hps'⟩ := hs.params
  have htype : ty' = ty := h.unique ht' ht
  have hparams : tys' = tys := Scope.denoted_unique h hps' hps
  rw [hs.get, hs.eq hn hty htys, htype, hparams]

end SymbolTable.Describes

namespace ReadFile

variable {b : List ReadFile}

/-- The table of a batch without faults has the symbols of its program and no others. -/
theorem get?_symbols_iff (h : (located b).program.WellFormed) (x : String) (s : Symbol) :
    (Analysis.ofFiles (b.map numbered)).symbols.get? x = some s ↔
      (located b).program.HasSymbol s ∧ s.name = x := by
  obtain ⟨-, hheaders, -⟩ := Program.wellFormed_iff.mp h
  have hd := describes (fresh_of_wellFormed h) hheaders
  have hn := Merged.named_ofFiles (b.map numbered)
  have hw := written_located b
  rw [symbols_eq]
  generalize (Merged.ofFiles (b.map numbered)).typedSymbols = t at hd hn
  constructor
  · intro hs
    rcases SymbolTable.of_get?_foldl_declareNew hs with hs | ⟨hs, hname⟩
    · exact ⟨hd.hasSymbol_of_get? hn hs, hn x s hs⟩
    · obtain ⟨r, hr, v, hv, ty, ht, rfl⟩ := local_of_mem hd h hs
      exact ⟨.local hr hv ht, hname⟩
  · rintro ⟨hs, rfl⟩
    cases hs with
    | header hm he ht hps =>
      exact SymbolTable.get?_foldl_declareNew_of_some _ (hd.get?_header hn hm he ht hps)
    | @«local» r v ty hr hv ht =>
      -- What stands under the name of the local is the symbol of a local, and of this one.
      obtain ⟨hsame, hparam⟩ := h.local_unique hr hv
      obtain ⟨ty', hmem⟩ := mem_of_local hd h hr hv
      obtain ⟨s, hs⟩ := SymbolTable.isSome_get?_foldl_declareNew (t := t) hmem
      have hplain (r : Routine) (hr : .routine r ∈ (located b).program) :
          ':' ∉ r.name.lexeme.toList := hw.names _ hr _ (Decl.name_mem_names (.routine r))
      rcases SymbolTable.of_get?_foldl_declareNew hs with hparams | ⟨hlocal, hname⟩
      · obtain ⟨q, hq, hqv⟩ := param_of_get? hd hw h hr hparams
        exact absurd hqv (hparam q hq)
      · obtain ⟨r', hr', v', hv', ty'', ht'', rfl⟩ := local_of_mem hd h hlocal
        obtain ⟨hrn, hvn⟩ := Symbol.qualify_inj (hplain r' hr') (hplain r hr) hname
        obtain rfl := h.routine_unique hr' hr hrn
        obtain rfl := hsame v' hv' hvn
        obtain rfl := h.denotes_unique ht ht''
        exact hs

end ReadFile

namespace Analysis

variable {outcomes outcomes' : List (Option Tree)} {ps qs : List Program}

/-- The symbols of a valid analysis are those of the program of its batch. -/
theorem get?_symbols_iff (h : ∀ t, some t ∈ outcomes → t.FromSource)
    (hps : outcomes.reduceOption.mapM Tree.program = .ok ps)
    (hv : (ofOutcomes outcomes).valid = true) (x : String) (s : Symbol) :
    (ofOutcomes outcomes).symbols.get? x = some s ↔
      Program.HasSymbol ps.flatten s ∧ s.name = x := by
  obtain ⟨b, hanalysis, htrees⟩ := ReadFile.exists_batch h
  rw [htrees, ReadFile.mapM_program] at hps
  obtain rfl := Except.ok.inj hps
  rw [hanalysis] at hv ⊢
  have hwf := ReadFile.no_faults_iff.mp ((valid_iff_no_faults _).mp hv)
  have hprogram : (b.map (·.program)).flatten = (ReadFile.located b).program :=
    (ReadFile.program_located b).symm
  rw [hprogram]
  exact ReadFile.get?_symbols_iff hwf x s

/-- The order of the files does not matter. -/
theorem valid_iff_of_perm (h : ∀ t, some t ∈ outcomes → t.FromSource)
    (hperm : outcomes.Perm outcomes') :
    (ofOutcomes outcomes).valid = true ↔ (ofOutcomes outcomes').valid = true := by
  have h' : ∀ t, some t ∈ outcomes' → t.FromSource := fun t ht => h t (hperm.mem_iff.mpr ht)
  have htrees : outcomes.reduceOption.Perm outcomes'.reduceOption := hperm.filterMap id
  obtain ⟨ps, hps, hvalid⟩ := valid_iff_wellFormed outcomes h
  obtain ⟨qs, hqs, hpq⟩ := mapM_perm htrees hps
  rw [valid_iff_of_program h hps, valid_iff_of_program h' hqs]
  exact ⟨fun hp => hp.perm hpq.flatten, fun hq => hq.perm hpq.symm.flatten⟩

/-- A batch that has all files of another has all its declarations. -/
theorem flatten_subset (hsub : ∀ t, some t ∈ outcomes → some t ∈ outcomes')
    (hps : outcomes.reduceOption.mapM Tree.program = .ok ps)
    (hqs : outcomes'.reduceOption.mapM Tree.program = .ok qs) : ps.flatten ⊆ qs.flatten := by
  intro d hd
  obtain ⟨p, hp, hd⟩ := List.mem_flatten.mp hd
  obtain ⟨t, ht, htp⟩ := exists_of_mem_left (forall₂_of_mapM hps).flip hp
  have ht' : t ∈ outcomes'.reduceOption :=
    List.reduceOption_mem_iff.mpr (hsub t (List.reduceOption_mem_iff.mp ht))
  obtain ⟨q, hq, htq⟩ := exists_of_mem_left (forall₂_of_mapM hqs) ht'
  obtain rfl := Except.ok.inj (htp.symm.trans htq)
  exact List.mem_flatten.mpr ⟨p, hq, hd⟩

section
variable (h : ∀ t, some t ∈ outcomes → t.FromSource) (h' : ∀ t, some t ∈ outcomes' → t.FromSource)
  (hv : (ofOutcomes outcomes).valid = true) (hv' : (ofOutcomes outcomes').valid = true)
  (hsub : ∀ t, some t ∈ outcomes → some t ∈ outcomes')
include h h' hv hv' hsub

/-- A file keeps its code in a larger batch. -/
theorem emit_of_subset {t : Tree} (ht : some t ∈ outcomes) :
    ∃ code, t.emit Phase.table (ofOutcomes outcomes).symbols = .ok code ∧
      t.emit Phase.table (ofOutcomes outcomes').symbols = .ok code := by
  obtain ⟨ps, hps, -, -, hserves, hphrase⟩ := program_of_valid h hv
  obtain ⟨qs, hqs, hwf, -, hserves', -⟩ := program_of_valid h' hv'
  have hpq : ps.flatten ⊆ qs.flatten := flatten_subset hsub hps hqs
  obtain ⟨f, hitems, hf⟩ := hphrase t ht
  have hprogram := Phrase.File.program_of_items hitems
  obtain ⟨code, hcode⟩ := emit_ok h hv ht
  obtain ⟨code', hcode'⟩ := emit_ok h' hv' (hsub t ht)
  obtain ⟨codes, hcodes, rfl⟩ := (h t ht).exists_codes hprogram hcode
  obtain ⟨codes', hcodes', rfl⟩ := (h t ht).exists_codes hprogram hcode'
  have hsame : codes = codes' := Code.mapM_decl_alike (Program.within_of_subset hpq) hwf hserves
    hserves' (fun d hd => hf hd) (fun d hd => hpq (hf hd)) rfl hcodes hcodes'
  exact ⟨_, hcode, hsame ▸ hcode'⟩

/-- A symbol stays as it is in a larger batch. -/
theorem get?_of_subset {x : String} {s : Symbol}
    (hs : (ofOutcomes outcomes).symbols.get? x = some s) :
    (ofOutcomes outcomes').symbols.get? x = some s := by
  obtain ⟨ps, hps, -⟩ := program_of_valid h hv
  obtain ⟨qs, hqs, -⟩ := program_of_valid h' hv'
  have hpq : ps.flatten ⊆ qs.flatten := flatten_subset hsub hps hqs
  obtain ⟨hp, hname⟩ := (get?_symbols_iff h hps hv x s).mp hs
  exact (get?_symbols_iff h' hqs hv' x s).mpr ⟨hp.mono hpq, hname⟩

end

end Analysis

/-- A batch in another order is valid exactly when the batch is. If two batches are valid and one
has all files of the other, each of these has the same code with the symbols of either batch, and
every symbol of the smaller batch is one of the larger batch. -/
theorem order_and_company_do_not_matter :
    (∀ outcomes outcomes' : List (Option Tree), (∀ t, some t ∈ outcomes → t.FromSource) →
      outcomes.Perm outcomes' →
      ((Analysis.ofOutcomes outcomes).valid = true ↔
        (Analysis.ofOutcomes outcomes').valid = true)) ∧
    ∀ outcomes outcomes' : List (Option Tree), (∀ t, some t ∈ outcomes → t.FromSource) →
      (∀ t, some t ∈ outcomes' → t.FromSource) → (Analysis.ofOutcomes outcomes).valid = true →
      (Analysis.ofOutcomes outcomes').valid = true →
      (∀ t, some t ∈ outcomes → some t ∈ outcomes') →
      (∀ t, some t ∈ outcomes → ∃ code,
        t.emit Phase.table (Analysis.ofOutcomes outcomes).symbols = .ok code ∧
        t.emit Phase.table (Analysis.ofOutcomes outcomes').symbols = .ok code) ∧
      ∀ x s, (Analysis.ofOutcomes outcomes).symbols.get? x = some s →
        (Analysis.ofOutcomes outcomes').symbols.get? x = some s := by
  constructor
  · intro outcomes outcomes' h hperm
    exact Analysis.valid_iff_of_perm h hperm
  · intro outcomes outcomes' h h' hv hv' hsub
    constructor
    · intro t ht
      exact Analysis.emit_of_subset h h' hv hv' hsub ht
    · intro x s hs
      exact Analysis.get?_of_subset h h' hv hv' hsub hs

/-- A file that uses nothing of others, alone and behind a file that uses its alias and its
function. -/
theorem order_and_company_do_not_matter_user_in_front :
    ∃ user used : Tree,
      Tree.ofText? "a" "var g: n = 2; func h(): n { return f(g); }" = some user ∧
      Tree.ofText? "b" "type n = int; func f(x: n): n { var y: n; y = x * 3; return y; }" =
        some used ∧
      (Analysis.ofOutcomes [some used, some user]).valid = true ∧
      (∃ code, used.emit Phase.table (Analysis.ofOutcomes [some used]).symbols = .ok code ∧
        used.emit Phase.table (Analysis.ofOutcomes [some user, some used]).symbols = .ok code) ∧
      ∀ x s, (Analysis.ofOutcomes [some used]).symbols.get? x = some s →
        (Analysis.ofOutcomes [some user, some used]).symbols.get? x = some s := by
  have hrun : ((Tree.ofText? "a" "var g: n = 2; func h(): n { return f(g); }").bind fun user =>
      (Tree.ofText? "b"
        "type n = int; func f(x: n): n { var y: n; y = x * 3; return y; }").map fun used =>
          (Analysis.ofOutcomes [some used]).valid &&
            (Analysis.ofOutcomes [some user, some used]).valid) = some true := by
    rw [Tree.ofText?_ofList, Tree.ofText?_ofList]
    decide +kernel
  obtain ⟨user, huser, hrun⟩ := Option.bind_eq_some_iff.mp hrun
  obtain ⟨used, hused, hvalid⟩ := Option.map_eq_some_iff.mp hrun
  obtain ⟨halone, hboth⟩ := Bool.and_eq_true_iff.mp hvalid
  have hsource : ∀ t, some t ∈ [some user, some used] → t.FromSource := by
    intro t ht
    simp only [List.mem_cons, Option.some.injEq, List.not_mem_nil, or_false] at ht
    rcases ht with rfl | rfl
    · exact Tree.fromSource_of_ofText? huser
    · exact Tree.fromSource_of_ofText? hused
  have hsub : ∀ t, some t ∈ [some used] → some t ∈ [some user, some used] := by
    intro t ht
    exact List.mem_cons_of_mem _ ht
  have hperm : [some user, some used].Perm [some used, some user] := .swap _ _ _
  obtain ⟨horder, hcompany⟩ := order_and_company_do_not_matter
  obtain ⟨hcode, hsymbols⟩ := hcompany [some used] [some user, some used]
    (fun t ht => hsource t (hsub t ht)) hsource halone hboth hsub
  exact ⟨user, used, huser, hused, (horder _ _ hsource hperm).mp hboth,
    hcode used List.mem_cons_self, hsymbols⟩

end ThreeAddress
