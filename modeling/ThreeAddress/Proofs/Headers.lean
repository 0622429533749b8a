import Mathlib.Data.List.Induction
import ThreeAddress.Proofs.AliasFaults

namespace ThreeAddress

namespace Merged

theorem admitted_sublist (t : SymbolTable) (ds : List Declaration) :
    (admitted t ds).Sublist ds := by
  induction ds generalizing t with
  | nil => exact List.Sublist.refl []
  | cons d ds ih =>
    rw [admitted]
    cases t.get? d.key with
    | some first => exact (ih _).cons d
    | none => exact (ih _).cons_cons d

end Merged

namespace Decl

/-- The head of a declaration is enlisted, and behind it parameters, each with its slot. -/
theorem exists_enlisted (d : Decl) :
    ∃ l : List (Param × Nat), l.Sublist d.params.zipIdx ∧
      d.enlisted = d.head :: l.map fun x => .param d.name x.2 x.1.name x.1.type := by
  have htail := Merged.admitted_sublist (SymbolTable.empty.declareNew d.head.symbol)
    d.declarations.tail
  rw [Merged.tail_declarations] at htail
  obtain ⟨l, hl, hparams⟩ := List.sublist_map_iff.mp htail
  refine ⟨l, hl, ?_⟩
  rw [enlisted, d.declarations_eq, Merged.admitted, SymbolTable.get?_empty,
    Merged.tail_declarations, hparams]
  rfl

end Decl

section
variable {b : Aliases} {p : Program} {types : Token → Option Ty} {done cycles : List String}

/-- Tokens are resolved to their types, whatever is known before. -/
theorem Aliases.Progress.types_resolveAll (hm : b.Mirrors p)
    (htypes : ∀ t ty, types t = some ty ↔ p.Denotes t ty) {a : Aliases}
    (h : b.Progress a done cycles) (i : Nat) (ts : List Token) :
    (a.resolveAll i ts).1 = ts.map types := by
  induction ts generalizing a done cycles with
  | nil => rfl
  | cons t ts ih =>
    obtain ⟨path, new, h, -, hty, -⟩ := h.resolve hm i t
    have htype : (a.resolve i t).1 = types t := by
      ext ty
      rw [hty, htypes]
    rw [Aliases.resolveAll, List.map_cons, ← htype, ← ih h]

namespace Resolution

/-- A declaration, a parameter or not, is found with the type of its token. -/
structure Settles (types : Token → Option Ty) (d : Accepted) (found : ResolvedTypes) : Prop where
  key : found.key = d.declaration.key
  type : found.ty = types d.declaration.type

/-- Parameters are found by their slots in the signature. -/
theorem settles_params {r : Resolution} {f : Routine}
    (hs : r.signatures[f.name.lexeme]? = some ((f.params.map (·.type)).map types).toArray)
    (i : Nat) {l : List (Param × Nat)} (hl : l.Sublist f.params.zipIdx) :
    let es := l.map fun y => (⟨i, .param f.name y.2 y.1.name y.1.type⟩ : Accepted)
    List.Forall₂ (fun d found => Settles types d found.1) es (r.steps es) ∧ r.after es = r := by
  intro es
  obtain ⟨hsteps, hafter⟩ := steps_of_signature hs i l
  refine ⟨?_, hafter⟩
  rw [hsteps, List.forall₂_map_left_iff, List.forall₂_map_right_iff, List.forall₂_same]
  intro y hy
  have hslot : f.params[y.2]? = some y.1 := List.mem_zipIdx_iff_getElem?.mp (hl.subset hy)
  exact ⟨rfl, by simp [hslot, Declaration.type]⟩

variable (hm : b.Mirrors p) (htypes : ∀ t ty, types t = some ty ↔ p.Denotes t ty)
include hm htypes

/-- The signature of a function has the types of its parameters. -/
theorem signature_step {r : Resolution} (h : b.Progress r.aliases done cycles) (i : Nat)
    (name ret : Token) (params : List Token) :
    (r.step ⟨i, .function name ret params⟩).2.2.signatures[name.lexeme]? =
      some (params.map types).toArray := by
  obtain ⟨path, new, h, -⟩ := h.resolve hm i ret
  have hparams := h.types_resolveAll hm htypes i params
  simp only [step, hparams, Std.TreeMap.getElem?_insert_self]

/-- What one declaration brings: all of it is found with the types of its tokens. -/
theorem settles_enlisted {r : Resolution} (h : b.Progress r.aliases done cycles) {x : Nat × Decl}
    (hx : x.2 ∈ p) :
    let ds := x.2.enlisted.map fun e => (⟨x.1, e⟩ : Accepted)
    List.Forall₂ (fun d found => Settles types d found.1) ds (r.steps ds) ∧
      ∃ done cycles, b.Progress (r.after ds).aliases done cycles := by
  obtain ⟨i, d⟩ := x
  intro ds
  obtain ⟨l, hl, henlisted⟩ := d.exists_enlisted
  have halias : ∀ name target, d.head = .alias name target → .alias name target ∈ p := by
    intro name target hhead
    cases d <;> cases hhead
    exact hx
  obtain ⟨path, new, hprogress, -, hfinds, -⟩ := step_progress hm htypes h (d := ⟨i, d.head⟩) halias
  have hhead : Settles types ⟨i, d.head⟩ (r.step ⟨i, d.head⟩).1 :=
    ⟨hfinds.key, hfinds.type d.isParam_head⟩
  let es := l.map fun y => (⟨i, .param d.name y.2 y.1.name y.1.type⟩ : Accepted)
  have hds : ds = ⟨i, d.head⟩ :: es := by
    simp only [ds, es, henlisted, List.map_cons, List.map_map, Function.comp_def]
  suffices hparams : List.Forall₂ (fun d found => Settles types d found.1) es
      ((r.step ⟨i, d.head⟩).2.2.steps es) ∧
      (r.step ⟨i, d.head⟩).2.2.after es = (r.step ⟨i, d.head⟩).2.2 by
    rw [hds]
    refine ⟨.cons hhead hparams.1, path ++ done, new ++ cycles, ?_⟩
    exact hparams.2.symm ▸ hprogress
  cases d with
  | routine f =>
    have hsignature := signature_step hm htypes h i f.name f.ret (f.params.map (·.type))
    exact settles_params hsignature i hl
  | _ =>
    obtain rfl := List.sublist_nil.mp hl
    exact ⟨.nil, rfl⟩

/-- One declaration after the other. -/
theorem settles_winners {r : Resolution} (h : b.Progress r.aliases done cycles) {ws : Located}
    (hws : ∀ x ∈ ws, x.2 ∈ p) :
    let ds := ws.flatMap fun x => x.2.enlisted.map fun e => (⟨x.1, e⟩ : Accepted)
    List.Forall₂ (fun d found => Settles types d found.1) ds (r.steps ds) := by
  intro ds
  induction ws generalizing r done cycles with
  | nil => exact .nil
  | cons x ws ih =>
    obtain ⟨hx, hws⟩ := List.forall_mem_cons.mp hws
    obtain ⟨hfound, done', cycles', h'⟩ := settles_enlisted hm htypes h hx
    have hrest := ih h' hws
    simp only [ds, List.flatMap_cons, steps_append]
    exact List.rel_append hfound hrest

end Resolution

end

namespace TypeName

/-- The type of a token by its name, if it has one. -/
def typeOf (symbols : SymbolTable) (t : Token) : Option Ty := (lookup symbols t).toOption.join

/-- A token has a type if it is the word for it, or if its name is that of an alias with the type. -/
theorem typeOf_eq_some_iff {symbols : SymbolTable} {t : Token} {ty : Ty} :
    typeOf symbols t = some ty ↔ Ty.ofKind? t.kind = some ty ∨
      Ty.ofKind? t.kind = none ∧
        ∃ s, symbols.get? t.lexeme = some s ∧ s.kind = .type ∧ s.ty = some ty := by
  unfold typeOf lookup ofToken
  cases Ty.ofKind? t.kind with
  | some ty' => simp [Except.toOption]
  | none =>
    cases symbols.get? t.lexeme with
    | none => simp [Except.toOption]
    | some s =>
      by_cases hk : s.kind = .type
      · simp [hk, Except.toOption]
      · simp [hk, Except.toOption]

end TypeName

namespace ReadFile

variable {b : List ReadFile}

theorem alias_mem_winners {i : Nat} {name target : Token} :
    ⟨i, .alias name target⟩ ∈ (Merged.ofFiles (b.map numbered)).accepted ↔
      (i, .alias name target) ∈ Located.winners [] (located b) := by
  rw [merged_eq]
  exact Located.alias_accepted_iff (plain_located b)

section
variable (h : Distinct b)
include h

theorem winner_of_accepted {a : Accepted}
    (ha : a ∈ (Merged.ofFiles (b.map numbered)).accepted) :
    ∃ x ∈ Located.winners [] (located b), a.declaration ∈ x.2.declarations := by
  rw [(merged_follows h).2.1] at ha
  obtain ⟨x, hx, ha⟩ := List.mem_flatMap.mp ha
  obtain ⟨e, he, rfl⟩ := List.mem_map.mp ha
  exact ⟨x, hx, (Merged.admitted_sublist _ _).subset he⟩

/-- An accepted declaration, a parameter or not, has its symbol with the type of its token. -/
theorem get?_typed {a : Accepted} (ha : a ∈ (Merged.ofFiles (b.map numbered)).accepted) :
    ∃ s, (Merged.ofFiles (b.map numbered)).typedSymbols.get? a.declaration.key = some s ∧
      s.kind = a.declaration.kind ∧ s.site = a.declaration.site.site ∧
      s.ty = (located b).typeOf a.declaration.type := by
  have hplain := plain_located b
  have hws : ∀ x ∈ Located.winners [] (located b),
      x.2 ∈ (Located.winners [] (located b)).program := fun x hx => Located.mem_program hx
  have hsettles := Resolution.settles_winners (Located.mirrors_aliases hplain)
    (Located.typeOf_eq_some_iff hplain) (r := Resolution.start (.merge .empty (located b).findings))
    (Aliases.progress_start rfl) hws
  have haccepted := (merged_follows h).2.1
  rw [merged_eq] at ha haccepted ⊢
  rw [← haccepted] at hsettles
  obtain ⟨found, hfound, hget⟩ :=
    Merged.get?_typedSymbols (hsettles.imp fun d x hx => ⟨hx.key, hx⟩) ha
  exact ⟨_, hget, rfl, rfl, hfound.type⟩

/-- Every symbol of the table is that of an accepted declaration. -/
theorem accepted_of_typed {x : String} {s : Symbol}
    (hs : (Merged.ofFiles (b.map numbered)).typedSymbols.get? x = some s) :
    ∃ a ∈ (Merged.ofFiles (b.map numbered)).accepted, a.declaration.key = x ∧
      s.kind = a.declaration.kind ∧ s.site = a.declaration.site.site ∧
      s.ty = (located b).typeOf a.declaration.type := by
  have hsome : ((Merged.ofFiles (b.map numbered)).symbols.get? x).isSome = true := by
    rw [← SymbolTable.isSome_get?_recorded _ (Merged.ofFiles (b.map numbered)).resolved]
    exact Option.isSome_iff_exists.mpr ⟨s, hs⟩
  obtain ⟨s', hs'⟩ := Option.isSome_iff_exists.mp hsome
  rw [merged_eq] at hs'
  obtain ⟨a, ha, hkey, -⟩ := Merged.accepted_of_get? hs'
  rw [← merged_eq] at ha
  obtain ⟨s'', hget, hfacts⟩ := get?_typed h ha
  rw [hkey, hs] at hget
  obtain rfl := Option.some.inj hget
  exact ⟨a, ha, hkey, hfacts⟩

/-- A look-up in the table gives the type that a token has by the aliases of the batch. -/
theorem typeOf_typed (t : Token) :
    TypeName.typeOf (Merged.ofFiles (b.map numbered)).typedSymbols t = (located b).typeOf t := by
  have htypes := Located.typeOf_eq_some_iff (plain_located b)
  ext ty
  rw [TypeName.typeOf_eq_some_iff, htypes]
  constructor
  · rintro (hk | ⟨hk, s, hs, hkind, hty⟩)
    · exact .builtin hk
    · obtain ⟨⟨i, d⟩, ha, hkey, hkind', -, hty'⟩ := accepted_of_typed h hs
      rw [hkind] at hkind'
      cases d with
      | «alias» name target =>
        have hd := Located.mem_program (alias_mem_winners.mp ha)
        exact .alias hk hd hkey ((htypes target ty).mp (hty'.symm.trans hty))
      | _ => cases hkind'
  · intro hdenotes
    cases hdenotes with
    | builtin hk => exact .inl hk
    | @«alias» _ name target _ hk hd hn hdenotes =>
      obtain ⟨⟨i, d⟩, hd, rfl⟩ := List.mem_map.mp hd
      obtain ⟨s, hs, hkind, -, hty⟩ := get?_typed h (alias_mem_winners.mpr hd)
      replace hs : _ = some s := (congrArg _ hn).symm.trans hs
      exact .inr ⟨hk, s, hs, hkind, hty.trans ((htypes target ty).mpr hdenotes)⟩

/-- A parameter in the table is one of the function that has the name. -/
theorem param_of_typed {i : Nat} {r : Routine}
    (hfirst : (located b).first? r.name.lexeme = some (i, .routine r)) {x : String} {s : Symbol}
    (hs : (Merged.ofFiles (b.map numbered)).typedSymbols.local? r.name.lexeme x = some s) :
    ∃ q ∈ r.params, s.site = q.name.site ∧ s.ty = (located b).typeOf q.type := by
  obtain ⟨a, ha, hkey, -, hsite, hty⟩ := accepted_of_typed h hs
  obtain ⟨y, hy, hdecl⟩ := winner_of_accepted h ha
  have hwins := Located.mem_winners.mp hy
  have hplain := plain_located b y (Located.name_of_first? hwins).1
  have hplain' := plain_located b _ (Located.name_of_first? hfirst).1
  rw [y.2.declarations_eq] at hdecl
  rcases List.mem_cons.mp hdecl with hhead | htail
  · exact absurd (hhead ▸ hkey) (Merged.qualify_ne_head y.2 hplain r.name.lexeme x)
  · obtain ⟨r', q, slot, hr', hq, hparam⟩ := Decl.param_of_mem_tail htail
    rw [hr'] at hplain hwins
    rw [hparam] at hkey hsite hty
    obtain ⟨hname, -⟩ := Symbol.qualify_inj hplain hplain' hkey
    have hsame : some y = some (i, .routine r) := by
      rw [← hwins, ← hfirst]
      exact congrArg _ hname
    obtain rfl : r' = r := by
      cases hsame
      cases hr'
      rfl
    exact ⟨q, hq, hsite, hty⟩

/-- Of the parameters with one name, the table has the first, with the type of its token. -/
theorem local?_typed {i : Nat} {r : Routine}
    (hfirst : (located b).first? r.name.lexeme = some (i, .routine r)) (x : String) :
    ((Merged.ofFiles (b.map numbered)).typedSymbols.local? r.name.lexeme x).map
        (fun s => (s.site, s.ty)) =
      (r.params.find? (·.name.lexeme = x)).map fun q =>
        (q.name.site, (located b).typeOf q.type) := by
  have hsites := h.params _ (Located.mem_program (Located.name_of_first? hfirst).1)
  have hfinds : ((Merged.ofFiles (b.map numbered)).typedSymbols.local? r.name.lexeme x).map
      (·.site) = (r.params.find? (·.name.lexeme = x)).map (·.name.site) := by
    refine (finds_params h hfirst x).trans ?_
    rw [List.find?_map, Option.map_map]
    rfl
  cases hs : (Merged.ofFiles (b.map numbered)).typedSymbols.local? r.name.lexeme x with
  | none =>
    rw [hs] at hfinds
    rw [Option.map_eq_none_iff.mp hfinds.symm]
    rfl
  | some s =>
    rw [hs] at hfinds
    obtain ⟨q, hq, hsite⟩ := Option.map_eq_some_iff.mp hfinds.symm
    obtain ⟨q', hq', hsite', hty⟩ := param_of_typed h hfirst hs
    obtain rfl := List.inj_on_of_nodup_map hsites hq' (List.mem_of_find?_eq_some hq)
      (hsite'.symm.trans hsite.symm)
    rw [hq, Option.map_some, Option.map_some, hsite', hty]

/-- The table has the type of a function with it. -/
theorem get?_ret_typed {i : Nat} {r : Routine}
    (hfirst : (located b).first? r.name.lexeme = some (i, .routine r)) :
    ((Merged.ofFiles (b.map numbered)).typedSymbols.get? r.name.lexeme).bind (·.ty) =
      (located b).typeOf r.ret := by
  have hhead := Located.head_mem_accepted (plain_located b)
    (x := (i, .routine r)) (Located.mem_winners.mpr hfirst)
  rw [← merged_eq] at hhead
  obtain ⟨s, hs, -, -, hty⟩ := get?_typed h hhead
  have hget : (Merged.ofFiles (b.map numbered)).typedSymbols.get? r.name.lexeme = some s := hs
  rw [hget]
  exact hty

end

end ReadFile

/-- A table has the first of the parameters with one name, with the type of its token. -/
def SymbolTable.KnowsParams (t : SymbolTable) (f : String) (params : List Param) : Prop :=
  ∀ x, (t.local? f x).map (fun s => (s.site, s.ty)) =
    (params.find? (·.name.lexeme = x)).map fun q => (q.name.site, TypeName.typeOf t q.type)

namespace Scope

section
variable (symbols : SymbolTable)

/-- A parameter comes into scope with the type of its token, unless its name is taken. -/
def enter (c : Scope) (q : Param) : Scope :=
  if c.locals.contains q.name.lexeme then c
  else c.add q.name.lexeme ⟨TypeName.typeOf symbols q.type, q.name.site⟩

/-- A parameter comes into scope with the type that the table has for it, unless the table has
another one of its name. -/
def fetch (f : String) (c : Scope) (q : Param) : Scope :=
  match symbols.local? f q.name.lexeme with
  | some s => if s.site = q.name.site then c.add q.name.lexeme ⟨s.ty, q.name.site⟩ else c
  | none => c

theorem ofHeader_eq (g : Function) :
    ofHeader symbols g =
      (TypeName.typeOf symbols g.ret, g.params.foldl (enter symbols) ⟨symbols, {}⟩) :=
  rfl

theorem ofSymbols_eq (g : Function) :
    ofSymbols symbols g = ((symbols.get? g.name.lexeme).bind (·.ty),
      g.params.foldl (fetch symbols g.name.lexeme) ⟨symbols, {}⟩) :=
  rfl

/-- By their names the first parameters come into scope. -/
theorem locals_foldl_enter (ps : List Param) (x : String) :
    (ps.foldl (enter symbols) ⟨symbols, {}⟩).locals[x]? =
      (ps.find? (·.name.lexeme = x)).map fun q => ⟨TypeName.typeOf symbols q.type, q.name.site⟩ := by
  induction ps using List.reverseRecOn with
  | nil => simp
  | append_singleton ps q ih =>
    rw [List.foldl_append, List.find?_append, Option.map_or, ← ih]
    generalize ps.foldl (enter symbols) ⟨symbols, {}⟩ = c
    simp only [List.foldl_cons, List.foldl_nil, enter, ← Std.TreeMap.isSome_getElem?_eq_contains]
    by_cases hx : q.name.lexeme = x
    · subst hx
      cases hc : c.locals[q.name.lexeme]? with
      | some l => simp [hc]
      | none => simp [add]
    · split
      · simp [hx]
      · simp [hx, add, Std.TreeMap.getElem?_insert]

end

section
variable {symbols : SymbolTable} {f : String} {params : List Param}
  (h : symbols.KnowsParams f params) (hsites : (params.map (·.name.site)).Nodup)
include h hsites

/-- Behind others, a parameter comes into scope in the same way. -/
theorem fetch_eq_enter {past rest : List Param} {q : Param} (hps : params = past ++ q :: rest) :
    fetch symbols f (past.foldl (enter symbols) ⟨symbols, {}⟩) q =
      enter symbols (past.foldl (enter symbols) ⟨symbols, {}⟩) q := by
  have hlocal := locals_foldl_enter symbols past q.name.lexeme
  have htable := h q.name.lexeme
  rw [hps, List.find?_append] at htable
  rw [fetch, enter, ← Std.TreeMap.isSome_getElem?_eq_contains, hlocal]
  cases hpast : past.find? (·.name.lexeme = q.name.lexeme) with
  | some u =>
    rw [hpast] at htable
    obtain ⟨s, hs, hsame⟩ := Option.map_eq_some_iff.mp htable
    -- The table has the earlier one, which stands elsewhere.
    have hne : s.site ≠ q.name.site := by
      rw [(Prod.mk.inj hsame).1]
      rw [hps, List.map_append] at hsites
      exact (List.nodup_append.mp hsites).2.2 _
        (List.mem_map_of_mem (List.mem_of_find?_eq_some hpast)) _ List.mem_cons_self
    simp [hs, hne]
  | none =>
    rw [hpast, Option.none_or, List.find?_cons_of_pos (by simp)] at htable
    obtain ⟨s, hs, hsame⟩ := Option.map_eq_some_iff.mp htable
    obtain ⟨hsite, hty⟩ := Prod.mk.inj hsame
    simp [hs, hsite, hty]

theorem foldl_fetch_eq {past rest : List Param} (hps : params = past ++ rest) :
    rest.foldl (fetch symbols f) (past.foldl (enter symbols) ⟨symbols, {}⟩) =
      params.foldl (enter symbols) ⟨symbols, {}⟩ := by
  induction rest generalizing past with
  | nil => rw [hps, List.append_nil, List.foldl_nil]
  | cons q rest ih =>
    have hnext : enter symbols (past.foldl (enter symbols) ⟨symbols, {}⟩) q =
        (past ++ [q]).foldl (enter symbols) ⟨symbols, {}⟩ := by
      rw [List.foldl_append, List.foldl_cons, List.foldl_nil]
    rw [List.foldl_cons, fetch_eq_enter h hsites hps, hnext]
    exact ih (by rw [hps, List.append_cons])

end

/-- The scope of a function by the table is that by the names in its header. -/
theorem ofSymbols_eq_ofHeader {symbols : SymbolTable} {g : Function}
    (hret : (symbols.get? g.name.lexeme).bind (·.ty) = TypeName.typeOf symbols g.ret)
    (hparams : symbols.KnowsParams g.name.lexeme g.params)
    (hsites : (g.params.map (·.name.site)).Nodup) :
    ofSymbols symbols g = ofHeader symbols g := by
  rw [ofSymbols_eq, ofHeader_eq, hret]
  exact congrArg _ (foldl_fetch_eq hparams hsites (List.nil_append g.params).symm)

end Scope

/-- Let the files of a batch have labels of their own. A function that won its name has one type and
one scope, whether they are taken from the table or looked up by the names in the header. Its type
is that of its token by the aliases of the batch, if there is one. In scope are its parameters, of
several with one name the first, each at its own place and with the type of its token. -/
theorem header_typings_agree (outcomes : List (Option Tree))
    (h : ∀ t, some t ∈ outcomes → t.FromSource)
    (hlabels : (outcomes.reduceOption.map (·.file)).Nodup) (t : Tree) (ht : some t ∈ outcomes)
    (g : Function) (hg : g ∈ t.functions)
    (hwon : g.isAccepted (Analysis.headers (parsedFiles outcomes)) = true) :
    let symbols := Analysis.headers (parsedFiles outcomes)
    Scope.ofSymbols symbols g = Scope.ofHeader symbols g ∧
      ∃ (ds : Located) (types : Token → Option Ty),
        Located.ofFiles (parsedFiles outcomes) = .ok ds ∧
        (∀ u ty, types u = some ty ↔ (Located.winners [] ds).program.Denotes u ty) ∧
        (Scope.ofSymbols symbols g).1 = types g.ret ∧
        ∀ x : String, (Scope.ofSymbols symbols g).2.locals[x]? =
          (g.params.find? (·.name.lexeme = x)).map fun q => ⟨types q.type, q.name.site⟩ := by
  obtain ⟨b, hb, htrees, -, -, hdistinct⟩ := ReadFile.exists_distinct h hlabels
  obtain ⟨f, hf, rfl⟩ : ∃ f ∈ b, f.tree = t := by
    rw [← List.mem_map, htrees]
    exact List.reduceOption_mem_iff.mpr ht
  obtain ⟨r, hgr, hr⟩ := ReadFile.exists_routine hf hg
  obtain ⟨⟨i, d⟩, hr, rfl⟩ := List.mem_map.mp hr
  obtain ⟨hname, hparams, hret, -⟩ := Function.routine_eq_ok hgr
  rw [Analysis.headers, ← hb] at hwon ⊢
  have hfirst := ReadFile.first?_of_isAccepted hdistinct hr hname.symm hwon
  have htypes := ReadFile.typeOf_typed hdistinct
  have hsites := hdistinct.params _ (Located.mem_program hr)
  have htable : (Merged.ofFiles (b.map ReadFile.numbered)).typedSymbols.KnowsParams g.name.lexeme
      g.params := by
    intro x
    rw [← hname, ← hparams, ReadFile.local?_typed hdistinct hfirst]
    simp only [htypes]
  have htype := ReadFile.get?_ret_typed hdistinct hfirst
  rw [hname, hret, ← htypes] at htype
  have hagree := Scope.ofSymbols_eq_ofHeader htype htable (hparams ▸ hsites)
  refine ⟨hagree, ReadFile.located b, (ReadFile.located b).typeOf, ReadFile.ofFiles_numbered b,
    Located.typeOf_eq_some_iff (ReadFile.plain_located b), ?_, fun x => ?_⟩
  · rw [hagree, Scope.ofHeader_eq, htypes]
  · rw [hagree, Scope.ofHeader_eq, Scope.locals_foldl_enter]
    simp only [htypes]

/-- A cycle across two files, a name that nothing has and two names that are repeated in the header
of a function; a later file has another function of the name. -/
theorem header_typings_agree_repeated_names :
    let source := Tree.ofText? "a"
      "type p = q;\nfunc f(x: p, y: k, x: int, z: w, y: p): p { return 1; }"
    let outcomes := [source, none,
      Tree.ofText? "b" "type q = p;\ntype k = float;\nfunc f(x: int): int { return x; }"]
    let symbols := Analysis.headers (parsedFiles outcomes)
    ∃ t g, source = some t ∧ g ∈ t.functions ∧ g.isAccepted symbols = true ∧
      Scope.ofSymbols symbols g = Scope.ofHeader symbols g ∧
      (Scope.ofHeader symbols g).1 = none ∧
      (Scope.ofHeader symbols g).2.locals.toList =
        [("x", ⟨none, ⟨"a", 2, 8⟩⟩), ("y", ⟨some .float, ⟨"a", 2, 14⟩⟩),
          ("z", ⟨none, ⟨"a", 2, 28⟩⟩)] := by
  rw [Tree.ofText?_ofList, Tree.ofText?_ofList]
  intro source outcomes symbols
  have hlabels : (outcomes.reduceOption.map (·.file)).Nodup := by decide +kernel
  have hrun : (source.bind fun t => t.functions.head?.map fun g =>
      (g.isAccepted symbols,
        (Scope.ofHeader symbols g).1,
        (Scope.ofHeader symbols g).2.locals.toList)) =
      some (true, none, [("x", ⟨none, ⟨"a", 2, 8⟩⟩), ("y", ⟨some .float, ⟨"a", 2, 14⟩⟩),
        ("z", ⟨none, ⟨"a", 2, 28⟩⟩)]) := by
    decide +kernel
  obtain ⟨t, ht, hrun⟩ := Option.bind_eq_some_iff.mp hrun
  obtain ⟨g, hg, hrun⟩ := Option.map_eq_some_iff.mp hrun
  simp only [Prod.mk.injEq] at hrun
  obtain ⟨hwon, hret, hlocals⟩ := hrun
  have hmem := List.mem_of_mem_head? hg
  obtain ⟨hagree, -⟩ := header_typings_agree outcomes Tree.fromSource_of_mem_pair hlabels t
    (ht ▸ List.mem_cons_self) g hmem hwon
  exact ⟨t, g, ht, hmem, hwon, hagree, hret, hlocals⟩

end ThreeAddress
