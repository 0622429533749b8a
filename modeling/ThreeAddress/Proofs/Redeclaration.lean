import Mathlib.Data.List.Flatten
import ThreeAddress.Proofs.Company
import ThreeAddress.Proofs.FirstSeen
import ThreeAddress.Proofs.Shadowing

namespace ThreeAddress

/-- Complaints about the tokens whose word an earlier one has, each with the place of the first. -/
def Token.clashes : List Token → List Token → List Diagnostic
  | _, [] => []
  | seen, t :: ts =>
    ((seen.find? (·.lexeme = t.lexeme)).map fun first => duplicate t first.site).toList ++
      clashes (seen ++ [t]) ts

namespace Decl

/-- The names of the locals of a function. -/
def locals : Decl → List Token
  | .routine r => (r.body.flatMap Stmt.declared).map (·.1)
  | _ => []

end Decl

/-- Complaints about declarations behind others: about a name that is taken, or else about the
parameters of what won its name. -/
def Located.clashes : Located → Located → List Fault
  | _, [] => []
  | seen, x :: ds =>
    (match seen.first? x.2.name.lexeme with
      | some first => [⟨x.1, duplicate x.2.name first.2.name.site⟩]
      | none => (Token.clashes [] (x.2.params.map (·.name))).map (⟨x.1, ·⟩)) ++
      clashes (seen ++ [x]) ds

/-- Complaints about locals whose names are taken by a parameter or an earlier local. -/
def Located.localClashes (ds : Located) : List Fault :=
  ds.flatMap fun x => (Token.clashes (x.2.params.map (·.name)) x.2.locals).map (⟨x.1, ·⟩)

/-- A look-up gives the place of the first token with a word. -/
def FindsFirst (find : String → Option Site) (seen : List Token) : Prop :=
  ∀ x, find x = (seen.find? (·.lexeme = x)).map (·.site)

namespace FindsFirst

variable {find find' : String → Option Site} {seen : List Token}

theorem congr (h : FindsFirst find seen) (h' : ∀ x, find' x = find x) : FindsFirst find' seen :=
  fun x => (h' x).trans (h x)

theorem push (h : FindsFirst find seen) {t : Token}
    (h' : ∀ x, find' x = (find x).or (if t.lexeme = x then some t.site else none)) :
    FindsFirst find' (seen ++ [t]) := by
  intro x
  rw [h', h, List.find?_append, Option.map_or]
  congr 1
  by_cases hx : t.lexeme = x
  · simp [hx]
  · simp [hx]

/-- A word that is taken changes nothing. -/
theorem keep (h : FindsFirst find seen) {t : Token} {s : Site} (hs : find t.lexeme = some s) :
    FindsFirst find (seen ++ [t]) := by
  refine h.push fun x => ?_
  split
  · next hx => rw [← hx, hs, Option.some_or]
  · rw [Option.or_none]

end FindsFirst

namespace Merged

/-- Parameters behind others: the complaints about them, and what the table then has. -/
theorem again_params (i : Nat) {owner : Token} (ho : ':' ∉ owner.lexeme.toList) {t : SymbolTable}
    {seen : List Token}
    (h : FindsFirst (fun x => (t.get? (Symbol.qualify owner.lexeme x)).map (·.site)) seen)
    (ps : List (Param × Nat)) :
    let ds := ps.map fun x => Declaration.param owner x.2 x.1.name x.1.type
    again i t ds = (Token.clashes seen (ps.map (·.1.name))).map (⟨i, ·⟩) ∧
      FindsFirst (fun x => ((enrolled t ds).get? (Symbol.qualify owner.lexeme x)).map (·.site))
        (seen ++ ps.map (·.1.name)) := by
  intro ds
  induction ps generalizing t seen with
  | nil =>
    rw [List.map_nil, List.append_nil]
    exact ⟨rfl, h⟩
  | cons x ps ih =>
    let d := Declaration.param owner x.2 x.1.name x.1.type
    have hnext : FindsFirst
        (fun y => ((t.declareNew d.symbol).get? (Symbol.qualify owner.lexeme y)).map (·.site))
        (seen ++ [x.1.name]) := by
      refine h.push fun y => ?_
      rw [SymbolTable.get?_declareNew, Option.map_or]
      congr 1
      have hkey : d.symbol.name = Symbol.qualify owner.lexeme y ↔ x.1.name.lexeme = y :=
        ⟨fun hk => (Symbol.qualify_inj ho ho hk).2,
          fun hy => congrArg (Symbol.qualify owner.lexeme) hy⟩
      simp only [hkey]
      split <;> rfl
    obtain ⟨hagain, hfinds⟩ := ih hnext
    constructor
    · have hfirst := h x.1.name.lexeme
      simp only [ds, List.map_cons, again, Token.clashes, List.map_append]
      refine congrArg₂ _ ?_ hagain
      have hmap : ((t.get? d.key).map fun first => (⟨i, duplicate d.site first.site⟩ : Fault)) =
          ((t.get? d.key).map (·.site)).map fun s => ⟨i, duplicate d.site s⟩ := by
        rw [Option.map_map]
        rfl
      have hkey : (t.get? d.key).map (·.site) =
          (seen.find? (·.lexeme = x.1.name.lexeme)).map (·.site) :=
        hfirst
      rw [hmap, hkey]
      cases seen.find? (·.lexeme = x.1.name.lexeme) <;> rfl
    · rw [List.map_cons, List.append_cons]
      exact hfinds

end Merged

/-- What a declaration brings into a batch when it is the first of its name: itself, and the
parameters whose names no earlier one has. -/
def Decl.enlisted (d : Decl) : List Declaration := Merged.admitted .empty d.declarations

/-- What is admitted hangs on the names of the declarations only. -/
theorem Merged.admitted_congr {t t' : SymbolTable} {ds : List Declaration}
    (h : ∀ d ∈ ds, t.get? d.key = t'.get? d.key) : admitted t ds = admitted t' ds := by
  induction ds generalizing t t' with
  | nil => rfl
  | cons d ds ih =>
    obtain ⟨hd, hds⟩ := List.forall_mem_cons.mp h
    rw [admitted, admitted, hd, ih fun e he => ?_]
    rw [SymbolTable.get?_declareNew, SymbolTable.get?_declareNew, hds e he]

/-- A table that has the first declaration of every name, and the parameters of it. -/
structure SymbolTable.Follows (t : SymbolTable) (seen : Located) : Prop where
  heads : t.Heads seen
  params : ∀ f : String, ':' ∉ f.toList →
    FindsFirst (fun x => (t.get? (Symbol.qualify f x)).map (·.site))
      (((seen.first? f).map fun d => d.2.params.map (·.name)).getD [])

namespace Located

theorem first?_push_of_some {seen : Located} {x first : Nat × Decl}
    (h : seen.first? x.2.name.lexeme = some first) (y : String) :
    first? (seen ++ [x]) y = seen.first? y := by
  rw [first?_append, first?_singleton]
  split
  · next hy => rw [← hy, h, Option.some_or]
  · rw [Option.or_none]

end Located

namespace Merged

variable {t : SymbolTable} {seen : Located} {x : Nat × Decl}

/-- A declaration of a taken name takes part with its head only, if its place is not that of the
first. -/
theorem part_of_taken (h : t.Heads seen) (hx : ':' ∉ x.2.name.lexeme.toList) {first : Nat × Decl}
    (hf : seen.first? x.2.name.lexeme = some first)
    (hsite : first.2.name.site ≠ x.2.name.site) :
    part t x.2 = [x.2.head] ∧ t.declareNew x.2.head.symbol = t ∧
      t.get? x.2.head.key = some first.2.head.symbol := by
  have hget : t.get? x.2.head.key = some first.2.head.symbol := by
    rw [x.2.key_head, h _ hx, hf]
    rfl
  have hsame : t.declareNew x.2.head.symbol = t := SymbolTable.declareNew_of_some hget
  refine ⟨?_, hsame, hget⟩
  refine congrArg _ (List.filter_eq_nil_iff.mpr fun e he => ?_)
  have hne : first.2.head.symbol.isFunctionAt x.2.name = false := by
    have hs : first.2.head.symbol.site = first.2.name.site :=
      congrArg Token.site first.2.site_head
    simp [Symbol.isFunctionAt, hs, hsite]
  rw [hsame, Decl.counts_tail t he, ← x.2.key_head, hget, Option.map_some, hne]
  exact Bool.false_ne_true

/-- A declaration of a free name takes part as a whole. -/
theorem part_of_free (h : t.Heads seen) (hx : ':' ∉ x.2.name.lexeme.toList)
    (hf : seen.first? x.2.name.lexeme = none) :
    part t x.2 = x.2.declarations ∧ t.get? x.2.head.key = none := by
  have hget : t.get? x.2.head.key = none := by
    rw [x.2.key_head, h _ hx, hf]
    rfl
  refine ⟨?_, hget⟩
  rw [x.2.declarations_eq]
  refine congrArg _ (List.filter_eq_self.mpr fun e he => ?_)
  obtain ⟨r, q, slot, hr, hq, rfl⟩ := Decl.param_of_mem_tail he
  rw [hr] at he hget ⊢
  exact counts_params he hget

theorem qualify_ne_head (d : Decl) (hd : ':' ∉ d.name.lexeme.toList) (f y : String) :
    d.head.symbol.name ≠ Symbol.qualify f y := by
  intro hk
  have hname : d.head.symbol.name = d.name.lexeme := d.key_head
  exact hd (hname ▸ hk ▸ Symbol.colon_mem_qualify f y)

theorem get?_qualify_declareNew_head (t : SymbolTable) (d : Decl)
    (hd : ':' ∉ d.name.lexeme.toList) (f y : String) :
    (t.declareNew d.head.symbol).get? (Symbol.qualify f y) = t.get? (Symbol.qualify f y) := by
  rw [SymbolTable.get?_declareNew, if_neg (qualify_ne_head d hd f y), Option.or_none]

/-- The parameters of a declaration, as `again_params` has them. -/
theorem tail_declarations (d : Decl) :
    d.declarations.tail =
      d.params.zipIdx.map fun x => Declaration.param d.name x.2 x.1.name x.1.type := by
  cases d <;> rfl

theorem map_zipIdx_params (d : Decl) : d.params.zipIdx.map (·.1.name) = d.params.map (·.name) := by
  conv_rhs => rw [← List.zipIdx_map_fst 0 d.params, List.map_map]
  rfl

theorem follows_of_taken (h : t.Follows seen) (hx : ':' ∉ x.2.name.lexeme.toList)
    {first : Nat × Decl} (hf : seen.first? x.2.name.lexeme = some first)
    (hsite : first.2.name.site ≠ x.2.name.site) :
    again x.1 t (part t x.2) = [⟨x.1, duplicate x.2.name first.2.name.site⟩] ∧
      admitted t (part t x.2) = [] ∧ (enrolled t (part t x.2)).Follows (seen ++ [x]) := by
  obtain ⟨hpart, hsame, hget⟩ := part_of_taken h.heads hx hf hsite
  refine ⟨?_, ?_, ?_⟩
  · rw [hpart, again, hget, x.2.site_head]
    have hs : first.2.head.symbol.site = first.2.name.site := congrArg Token.site first.2.site_head
    rw [Option.map_some, hs]
    rfl
  · rw [hpart, admitted, hget]
    rfl
  · refine ⟨heads_part h.heads x, fun f hcolon => ?_⟩
    have hunchanged : enrolled t (part t x.2) = t := by
      rw [hpart]
      exact hsame
    rw [hunchanged, Located.first?_push_of_some hf]
    exact h.params f hcolon

theorem follows_of_free (h : t.Follows seen) (hx : ':' ∉ x.2.name.lexeme.toList)
    (hf : seen.first? x.2.name.lexeme = none) :
    again x.1 t (part t x.2) = (Token.clashes [] (x.2.params.map (·.name))).map (⟨x.1, ·⟩) ∧
      admitted t (part t x.2) = x.2.enlisted ∧
      (enrolled t (part t x.2)).Follows (seen ++ [x]) := by
  obtain ⟨hpart, hget⟩ := part_of_free h.heads hx hf
  let t' := t.declareNew x.2.head.symbol
  have hnone : FindsFirst
      (fun y => (t.get? (Symbol.qualify x.2.name.lexeme y)).map (·.site)) [] := by
    have hparams := h.params x.2.name.lexeme hx
    rwa [hf] at hparams
  have hempty : FindsFirst
      (fun y => (t'.get? (Symbol.qualify x.2.name.lexeme y)).map (·.site)) [] :=
    hnone.congr fun y =>
      congrArg (Option.map _) (get?_qualify_declareNew_head t x.2 hx x.2.name.lexeme y)
  obtain ⟨hagain, hfinds⟩ := again_params x.1 hx hempty x.2.params.zipIdx
  rw [← tail_declarations, map_zipIdx_params] at hagain hfinds
  have hdecl : part t x.2 = x.2.head :: x.2.declarations.tail := by
    rw [hpart]
    exact x.2.declarations_eq
  refine ⟨?_, ?_, ?_⟩
  · rw [hdecl, again, hget]
    exact hagain
  · rw [hpart, Decl.enlisted]
    refine admitted_congr fun e he => ?_
    rw [SymbolTable.get?_empty]
    rw [x.2.declarations_eq] at he
    rcases List.mem_cons.mp he with rfl | he
    · exact hget
    · obtain ⟨r, q, slot, hr, -, rfl⟩ := Decl.param_of_mem_tail he
      rw [hr] at hnone
      exact Option.map_eq_none_iff.mp (hnone q.name.lexeme)
  · refine ⟨heads_part h.heads x, fun f hcolon => ?_⟩
    rw [Located.first?_append, Located.first?_singleton, hdecl]
    by_cases hname : x.2.name.lexeme = f
    · subst hname
      rw [hf, if_pos rfl]
      exact hfinds
    · rw [if_neg hname, Option.or_none]
      refine (h.params f hcolon).congr fun y => congrArg (Option.map _) ?_
      -- The parameters are those of another function.
      have hne : ∀ e ∈ x.2.declarations.tail, e.key ≠ Symbol.qualify f y := by
        intro e he hk
        obtain ⟨r, q, slot, hr, -, rfl⟩ := Decl.param_of_mem_tail he
        rw [hr] at hx hname
        exact hname (Symbol.qualify_inj hx hcolon hk).1
      exact (get?_enrolled_of_ne hne).trans (get?_qualify_declareNew_head t x.2 hx f y)

/-- Merging complains about what is declared again, and nothing else. The first declarations are
accepted. -/
theorem merge_follows {ds : Located} (h : t.Follows seen) (hplain : ds.Plain)
    (hsites : ((seen ++ ds).map (·.2.name.site)).Nodup) :
    (merge t ds.findings).faults = Located.clashes seen ds ∧
      (merge t ds.findings).accepted =
        (Located.winners seen ds).flatMap (fun x => x.2.enlisted.map (⟨x.1, ·⟩)) ∧
      (merge t ds.findings).symbols.Follows (seen ++ ds) := by
  induction ds generalizing t seen with
  | nil =>
    rw [List.append_nil]
    exact ⟨rfl, rfl, h⟩
  | cons x ds ih =>
    obtain ⟨hx, hplain⟩ := List.forall_mem_cons.mp hplain
    have hstep : again x.1 t (part t x.2) =
        (match seen.first? x.2.name.lexeme with
          | some first => [⟨x.1, duplicate x.2.name first.2.name.site⟩]
          | none => (Token.clashes [] (x.2.params.map (·.name))).map (⟨x.1, ·⟩)) ∧
        admitted t (part t x.2) =
          (match seen.first? x.2.name.lexeme with
            | some _ => []
            | none => x.2.enlisted) ∧
        (enrolled t (part t x.2)).Follows (seen ++ [x]) := by
      cases hf : seen.first? x.2.name.lexeme with
      | none => exact follows_of_free h hx hf
      | some first =>
        refine follows_of_taken h hx hf fun hsame => ?_
        obtain ⟨hmem, -⟩ := Located.name_of_first? hf
        rw [List.map_append] at hsites
        exact (List.nodup_append.mp hsites).2.2 _ (List.mem_map_of_mem hmem) _
          List.mem_cons_self hsame
    obtain ⟨hagain, hadmitted, hfollows⟩ := hstep
    rw [List.append_cons] at hsites
    obtain ⟨hfaults, haccepted, hsymbols⟩ := ih hfollows hplain hsites
    have hfindings : Located.findings (x :: ds) =
        x.2.declarations.map (x.1, Finding.declared ·) ++ Located.findings ds := rfl
    rw [hfindings, merge_block t x.1 x.2 (Located.findings ds), List.append_cons]
    refine ⟨congrArg₂ _ hagain hfaults, ?_, hsymbols⟩
    rw [Located.winners, List.flatMap_append, ← haccepted, hadmitted]
    cases seen.first? x.2.name.lexeme with
    | some first => rfl
    | none => rw [List.flatMap_singleton]

end Merged

namespace Token

theorem clashes_append (seen ts us : List Token) :
    clashes seen (ts ++ us) = clashes seen ts ++ clashes (seen ++ ts) us := by
  induction ts generalizing seen with
  | nil => rw [List.append_nil]; rfl
  | cons t ts ih =>
    rw [List.cons_append, clashes, ih, clashes, ← List.append_cons, List.append_assoc]

theorem isDuplicate_of_mem_clashes {seen ts : List Token} :
    ∀ d ∈ clashes seen ts, d.isDuplicate = true := by
  induction ts generalizing seen with
  | nil => exact List.forall_mem_nil _
  | cons t ts ih =>
    refine List.forall_mem_append.mpr ⟨fun d hd => ?_, ih⟩
    obtain ⟨first, -, rfl⟩ := Option.map_eq_some_iff.mp (Option.mem_toList.mp hd)
    exact isDuplicate_duplicate t first.site

end Token

namespace Scope

/-- The place of a parameter or local. -/
def place? (c : Scope) (x : String) : Option Site := c.locals[x]?.map (·.site)

theorem place?_add (c : Scope) (name : String) (l : Local) (x : String) :
    (c.add name l).place? x = if name = x then some l.site else c.place? x := by
  unfold place? add
  rw [Std.TreeMap.getElem?_insert]
  simp only [Std.compare_eq_iff_eq]
  split <;> rfl

theorem finds_add {c : Scope} {seen : List Token} (h : FindsFirst c.place? seen) {t : Token}
    (hfree : c.place? t.lexeme = none) {l : Local} (hl : l.site = t.site) :
    FindsFirst (c.add t.lexeme l).place? (seen ++ [t]) := by
  refine h.push fun x => ?_
  rw [place?_add, hl]
  split
  · next hx => rw [← hx, hfree, Option.none_or]
  · rw [Option.or_none]

theorem finds_empty (symbols : SymbolTable) : FindsFirst (place? ⟨symbols, {}⟩) [] := by
  intro x
  simp [place?]

/-- Parameters are taken into scope one after the other. It is enough that each step adds the
parameter it is at, behind those that are done. -/
theorem finds_foldl {take : Scope → Param → Scope} {c : Scope} (hc : FindsFirst c.place? [])
    {params : List Param}
    (hstep : ∀ (done : List Param) (q : Param) (rest : List Param) (c : Scope),
      params = done ++ q :: rest →
      FindsFirst c.place? (done.map (·.name)) →
      FindsFirst (take c q).place? (done.map (·.name) ++ [q.name])) :
    FindsFirst (params.foldl take c).place? (params.map (·.name)) := by
  suffices hrest : ∀ (rest done : List Param) (c : Scope), params = done ++ rest →
      FindsFirst c.place? (done.map (·.name)) →
      FindsFirst (rest.foldl take c).place? (params.map (·.name)) from hrest params [] c rfl hc
  intro rest
  induction rest with
  | nil =>
    intro done c hps hc
    rw [List.append_nil] at hps
    exact hps ▸ hc
  | cons q rest ih =>
    intro done c hps hc
    have hnext := hstep done q rest c hps hc
    rw [← List.map_singleton, ← List.map_append] at hnext
    exact ih (done ++ [q]) (take c q) (by rw [hps, List.append_cons]) hnext

theorem finds_ofHeader (symbols : SymbolTable) (g : Function) :
    FindsFirst (ofHeader symbols g).2.place? (g.params.map (·.name)) := by
  refine finds_foldl (finds_empty symbols) fun done q _ c _ hc => ?_
  split
  · next hin =>
    obtain ⟨l, hl⟩ := Option.isSome_iff_exists.mp
      ((Std.TreeMap.isSome_getElem?_eq_contains).trans hin)
    exact hc.keep (s := l.site) (by rw [place?, hl]; rfl)
  · next hout =>
    refine finds_add hc ?_ rfl
    have hnone : c.locals[q.name.lexeme]? = none := by
      rw [← Option.not_isSome_iff_eq_none, Std.TreeMap.isSome_getElem?_eq_contains]
      exact hout
    rw [place?, hnone]
    rfl

/-- A table that has the first parameters brings them into scope, if no two parameters stand at one
place. -/
theorem finds_ofSymbols {symbols : SymbolTable} {g : Function}
    (h : FindsFirst (fun x => (symbols.local? g.name.lexeme x).map (·.site))
      (g.params.map (·.name)))
    (hsites : (g.params.map (·.name.site)).Nodup) :
    FindsFirst (ofSymbols symbols g).2.place? (g.params.map (·.name)) := by
  refine finds_foldl (finds_empty symbols) fun done q rest c hps hc => ?_
  have hfirst := h q.name.lexeme
  have hplace := hc q.name.lexeme
  rw [hps, List.map_append, List.find?_append] at hfirst
  cases hd : (done.map (·.name)).find? (·.lexeme = q.name.lexeme) with
  | some u =>
    rw [hd] at hfirst hplace
    obtain ⟨s, hs, hsite⟩ := Option.map_eq_some_iff.mp hfirst
    obtain ⟨q', hq', rfl⟩ := List.mem_map.mp (List.mem_of_find?_eq_some hd)
    -- The table has the earlier parameter, which stands elsewhere.
    have hne : s.site ≠ q.name.site := by
      rw [hsite]
      rw [hps, List.map_append] at hsites
      exact (List.nodup_append.mp hsites).2.2 _ (List.mem_map_of_mem hq') _ List.mem_cons_self
    simp only [hs, if_neg hne]
    exact hc.keep hplace
  | none =>
    rw [hd, Option.none_or, List.map_cons, List.find?_cons_of_pos (by simp)] at hfirst
    obtain ⟨s, hs, hsite⟩ := Option.map_eq_some_iff.mp hfirst
    rw [hd] at hplace
    simp only [hs, if_pos hsite]
    exact finds_add hc hplace rfl

end Scope

namespace Frame

variable {f : Frame} {seen : List Token}

theorem finds_declare (h : FindsFirst f.scope.place? seen) (name : Token) (ty : Option Ty) :
    FindsFirst (f.declare name ty).1.scope.place? (seen ++ [name]) := by
  unfold declare
  split
  · next first hfirst => exact h.keep (s := first.site) (by rw [Scope.place?, hfirst]; rfl)
  · next hnone => exact Scope.finds_add h (by rw [Scope.place?, hnone]; rfl) rfl

theorem finds_statement (h : FindsFirst f.scope.place? seen) (s : Stmt) :
    FindsFirst (f.statement s).1.scope.place? (seen ++ s.declared.map (·.1)) := by
  cases s with
  | «local» name type init => exact finds_declare h name _
  | _ => exact (List.append_nil seen).symm ▸ h

theorem again_eq_clashes (h : FindsFirst f.scope.place? seen) (s : Stmt) :
    f.again s = Token.clashes seen (s.declared.map (·.1)) := by
  cases s with
  | «local» name type init =>
    have hplace := h name.lexeme
    have hagain : f.again (.local name type init) =
        ((f.scope.place? name.lexeme).map fun site => duplicate name site).toList := by
      rw [again, Scope.place?, Option.map_map]
      rfl
    rw [hagain, hplace, Option.map_map]
    exact (List.append_nil _).symm
  | _ => rfl

/-- The complaints about locals of statements. -/
theorem duplicates_statements (h : FindsFirst f.scope.place? seen) (ss : List Stmt) :
    (f.statements ss).1.filter (·.isDuplicate) =
      Token.clashes seen ((ss.flatMap Stmt.declared).map (·.1)) := by
  induction ss generalizing f seen with
  | nil => rfl
  | cons s ss ih =>
    obtain ⟨ds, hds, hfaults⟩ := f.statement_faults (P := fun _ => True) (s := s) fun _ _ => trivial
    have hothers : ds.filter (·.isDuplicate) = [] := by
      refine List.filter_eq_nil_iff.mpr fun d hd => ?_
      rw [(hds d hd).notDuplicate]
      exact Bool.false_ne_true
    have hown : (f.again s).filter (·.isDuplicate) = f.again s := by
      rw [again_eq_clashes h]
      exact List.filter_eq_self.mpr Token.isDuplicate_of_mem_clashes
    rw [statements, List.filter_append, ih (finds_statement h s), hfaults, List.filter_append,
      hothers, hown, again_eq_clashes h, List.nil_append, List.flatMap_cons, List.map_append,
      Token.clashes_append]

end Frame

/-- Recording types leaves everything else of a symbol as it is. -/
theorem SymbolTable.map_recorded {β : Type} {g : Symbol → β}
    (hg : ∀ s ty params, g { s with ty := ty, params := params } = g s) (t : SymbolTable)
    (rs : List (ResolvedTypes × List Fault)) (x : String) :
    ((t.recorded rs).get? x).map g = (t.get? x).map g := by
  induction rs generalizing t with
  | nil => rfl
  | cons r rs ih =>
    refine (ih _).trans ?_
    rw [get?_setTypes, Option.map_map]
    congr 1
    funext s
    simp only [Function.comp_apply]
    split
    · exact hg s _ _
    · rfl

namespace ReadFile

/-- No two declarations stand at one place, and no two parameters of a function. -/
structure Distinct (b : List ReadFile) : Prop where
  names : ((located b).map (·.2.name.site)).Nodup
  params : ∀ d ∈ (located b).program, (d.params.map (·.name.site)).Nodup

variable {b : List ReadFile}

theorem plain_located (b : List ReadFile) : (located b).Plain := fun d hd =>
  (written_located b).names d.2 (Located.mem_program hd) d.2.name d.2.name_mem_names

theorem merged_follows (h : Distinct b) :
    (Merged.ofFiles (b.map numbered)).faults = Located.clashes [] (located b) ∧
      (Merged.ofFiles (b.map numbered)).accepted =
        (Located.winners [] (located b)).flatMap (fun x => x.2.enlisted.map (⟨x.1, ·⟩)) ∧
      (Merged.ofFiles (b.map numbered)).symbols.Follows (located b) := by
  rw [merged_eq]
  have hempty : SymbolTable.empty.Follows [] := by
    refine ⟨fun x _ => SymbolTable.get?_empty x, fun f _ x => ?_⟩
    exact congrArg (Option.map _) (SymbolTable.get?_empty _)
  exact Merged.merge_follows hempty (plain_located b) h.names

/-- A function that its name stands for is the first declaration of the name. -/
theorem first?_of_isAccepted (h : Distinct b) {i : Nat} {r : Routine}
    (hr : (i, .routine r) ∈ located b) {g : Function} (hname : g.name = r.name)
    (hacc : g.isAccepted (Merged.ofFiles (b.map numbered)).typedSymbols = true) :
    (located b).first? r.name.lexeme = some (i, .routine r) := by
  have hheads := (merged_follows h).2.2.heads r.name.lexeme (plain_located b _ hr)
  have hsite := SymbolTable.map_recorded (g := Symbol.site) (fun _ _ _ => rfl)
    (Merged.ofFiles (b.map numbered)).symbols (Merged.ofFiles (b.map numbered)).resolved
    r.name.lexeme
  rw [Function.isAccepted, hname] at hacc
  cases hs : (Merged.ofFiles (b.map numbered)).typedSymbols.get? r.name.lexeme with
  | none =>
    rw [hs] at hacc
    cases hacc
  | some s =>
    rw [hs] at hacc
    obtain ⟨-, hat⟩ := (Bool.and_eq_true _ _).mp hacc
    have htyped : ((Merged.ofFiles (b.map numbered)).symbols.recorded
        (Merged.ofFiles (b.map numbered)).resolved).get? r.name.lexeme = some s := hs
    rw [htyped, hheads] at hsite
    cases hfirst : (located b).first? r.name.lexeme with
    | none =>
      rw [hfirst] at hsite
      cases hsite
    | some d =>
      rw [hfirst] at hsite
      have hd : d.2.name.site = r.name.site :=
        calc d.2.name.site = d.2.head.symbol.site := (congrArg Token.site d.2.site_head).symm
          _ = s.site := (Option.some.inj hsite).symm
          _ = r.name.site := beq_iff_eq.mp hat
      obtain ⟨hmem, -⟩ := Located.name_of_first? hfirst
      exact congrArg some (List.inj_on_of_nodup_map h.names hmem hr hd)

/-- The table has the first parameters of a function that is the first of its name. -/
theorem finds_params (h : Distinct b) {i : Nat} {r : Routine}
    (hfirst : (located b).first? r.name.lexeme = some (i, .routine r)) :
    FindsFirst (fun x =>
      ((Merged.ofFiles (b.map numbered)).typedSymbols.local? r.name.lexeme x).map (·.site))
      (r.params.map (·.name)) := by
  obtain ⟨hr, -⟩ := Located.name_of_first? hfirst
  have hfinds := (merged_follows h).2.2.params r.name.lexeme (plain_located b _ hr)
  rw [hfirst] at hfinds
  refine FindsFirst.congr hfinds fun x => ?_
  exact SymbolTable.map_recorded (g := Symbol.site) (fun _ _ _ => rfl)
    (Merged.ofFiles (b.map numbered)).symbols (Merged.ofFiles (b.map numbered)).resolved
    (Symbol.qualify r.name.lexeme x)

/-- The scope at the start of a body has the first parameters. -/
theorem finds_opening (h : Distinct b) {i : Nat} {r : Routine}
    (hr : (i, .routine r) ∈ located b) {g : Function} (hg : g.routine = .ok r) :
    FindsFirst (g.opening (Merged.ofFiles (b.map numbered)).typedSymbols).scope.place?
      (r.params.map (·.name)) := by
  obtain ⟨hname, hparams, -, -⟩ := Function.routine_eq_ok hg
  rw [hparams, Function.opening]
  cases hacc : g.isAccepted (Merged.ofFiles (b.map numbered)).typedSymbols with
  | false => exact Scope.finds_ofHeader _ g
  | true =>
    have hfirst := first?_of_isAccepted h hr hname.symm hacc
    have hsites := h.params _ (Located.mem_program hr)
    refine Scope.finds_ofSymbols ?_ (hparams ▸ hsites)
    rw [← hparams, ← hname]
    exact finds_params h hfirst

/-- The complaints about the locals of a function. -/
theorem duplicates_check (h : Distinct b) {i : Nat} {r : Routine}
    (hr : (i, .routine r) ∈ located b) {g : Function} (hg : g.routine = .ok r) :
    (g.check (Merged.ofFiles (b.map numbered)).typedSymbols).1.filter (·.isDuplicate) =
      Token.clashes (r.params.map (·.name)) (Decl.locals (.routine r)) := by
  obtain ⟨-, -, -, hbody⟩ := Function.routine_eq_ok hg
  rw [Function.check_eq_body, Frame.body_eq_statements _ hbody]
  exact Frame.duplicates_statements (finds_opening h hr hg) r.body

/-- Complaints of one sort about bodies are those about the functions, file by file. -/
theorem filter_bodyFaults {t : SymbolTable} {q : Diagnostic → Bool} {F : Decl → List Diagnostic}
    (hother : ∀ d, d.routine? = none → F d = [])
    (hroutine : ∀ i r (g : Function), (i, .routine r) ∈ located b → g.routine = .ok r →
      (g.check t).1.filter q = F (.routine r)) :
    (bodyFaults t b).filter (fun x => q x.diagnostic) =
      (located b).flatMap fun x => (F x.2).map (⟨x.1, ·⟩) := by
  rw [bodyFaults, List.flatMap_map, List.filter_flatMap, located, List.flatMap_assoc]
  refine List.flatMap_congr fun f hf => ?_
  have hroutines : (f.program.filterMap Decl.routine?).flatMap (fun r => F (.routine r)) =
      f.program.flatMap F := by
    induction f.program with
    | nil => rfl
    | cons d ds ih =>
      cases d with
      | routine r => exact congrArg (_ ++ ·) ih
      | «alias» name target =>
        rw [List.flatMap_cons, hother _ rfl]
        exact ih
      | «global» name type init =>
        rw [List.flatMap_cons, hother _ rfl]
        exact ih
  have hfile : (Analysis.bodies t f.tree).1.filter q = f.program.flatMap F := by
    rw [Analysis.bodies, List.flatMap_map, List.filter_flatMap, ← hroutines]
    refine flatMap_congr_forall₂ f.functions_read fun g r hr hg => ?_
    refine hroutine f.origin r g ?_ hg
    exact List.mem_flatMap.mpr ⟨f, hf, List.mem_map_of_mem (Decl.mem_filterMap_routine?.mp hr)⟩
  rw [List.filter_map, List.flatMap_map]
  refine (congrArg _ hfile).trans ?_
  rw [List.map_flatMap]

end ReadFile

namespace Decl

/-- The tokens that a declaration names things with, in order. -/
def marks (d : Decl) : List Token := d.name :: d.params.map (·.name)

end Decl

namespace Phrase

theorem Chain.sublist_flatten {α σ β : Type} {f f' : α → List β} (g : σ → List β)
    (h : ∀ a, (f' a).Sublist (f a)) (c : Chain α σ) :
    (c.members.flatMap f').Sublist (c.flatten f g) := by
  rw [members, List.flatMap_cons, List.flatMap_map, flatten]
  refine (h c.first).append ?_
  induction c.tail with
  | nil => exact List.Sublist.refl _
  | cons p ps ih =>
    rw [List.flatMap_cons, List.flatMap_cons]
    exact ((h p.2).trans (List.sublist_append_right _ _)).append ih

theorem Params.sublist_tokens (ps : Option Params) :
    ((Params.list ps).map (·.name.1)).Sublist (Params.tokens ps) := by
  cases ps with
  | none => exact List.Sublist.refl _
  | some c =>
    have hname : ∀ q : Param, [q.name.1].Sublist q.tokens := fun q =>
      List.sublist_append_left [q.name.1] _
    have h := c.sublist_flatten (fun s => [s.1]) hname
    rwa [← List.map_eq_flatMap] at h

theorem Item.marks_sublist (i : Item) : i.decl.marks.Sublist i.tokens := by
  cases i with
  | type keyword name eq target semi => simp [decl, Decl.marks, Decl.name, Decl.params, tokens]
  | «global» keyword name colon ty init semi =>
    simp [decl, Decl.marks, Decl.name, Decl.params, tokens]
  | func header body close =>
    have hparams := Params.sublist_tokens header.params
    have hmarks : (decl (.func header body close)).marks =
        header.name.1 :: (Params.list header.params).map (·.name.1) := by
      simp [decl, Decl.marks, Decl.name, Decl.params, Param.param, Function.comp_def]
    have hheader : (decl (.func header body close)).marks.Sublist header.tokens := by
      rw [hmarks, Header.tokens, List.append_assoc]
      have hrest := hparams.trans (List.sublist_append_left _
        [header.closing.1, header.colon.1, header.ret.1, header.brace.1])
      exact ((hrest.cons header.opening.1).cons_cons _).cons _
    rw [tokens, List.append_assoc]
    exact hheader.trans (List.sublist_append_left _ _)

end Phrase

/-- Tokens that declarations have from a file stand one behind the other in it. -/
theorem Tree.FromSource.stands {t : Tree} (h : t.FromSource) {p : Program}
    (hp : t.program = .ok p) {g : Decl → List Token}
    (hg : ∀ i : Phrase.Item, (g i.decl).Sublist i.tokens) :
    (∀ u ∈ p.flatMap g, u.site.file = t.file) ∧
      (p.flatMap g).Pairwise fun u v => u.site.Before v.site := by
  obtain ⟨budget, file, s, ts, hl, hparse⟩ := h
  obtain ⟨hfile, us, eof, hts, heof, hbefore⟩ := tokenize_sites hl
  obtain ⟨f, rest, hf, hkinds, rfl⟩ := Phrase.parse_items hparse
  obtain rfl : p = f.program :=
    Except.ok.inj (hp.symm.trans (Phrase.File.program_of_items (t := ⟨_, f.nodes⟩) rfl))
  have htokens : (f.program.flatMap g).Sublist (f.items.flatMap Phrase.Item.tokens) := by
    rw [Phrase.File.program, List.flatMap_map]
    exact List.Sublist.flatMap_right _ fun i _ => hg i
  have hitems : f.items.flatMap Phrase.Item.tokens <+: us := by
    have hprefix : f.items.flatMap Phrase.Item.tokens <+: us ++ [eof] := by
      rw [← hts, hf, Phrase.File.tokens, List.append_assoc]
      exact List.prefix_append _ _
    rcases List.prefix_concat_iff.mp hprefix with heq | hus
    · have hlast : eof ∈ f.items.flatMap Phrase.Item.tokens := by
        rw [heq]
        exact List.mem_append_right _ (List.mem_singleton_self eof)
      exact absurd heof (hkinds eof hlast)
    · exact hus
  have hsub := htokens.trans hitems.sublist
  have hlabel : Token.fileOf ts = file := by
    cases ts with
    | nil =>
      cases us <;> cases hts
    | cons t ts => exact hfile t List.mem_cons_self
  constructor
  · intro u hu
    have hmem : u ∈ ts := by
      rw [hts]
      exact List.mem_append_left _ (hsub.subset hu)
    exact (hfile u hmem).trans hlabel.symm
  · exact hbefore.sublist hsub

/-- The names that a file declares stand one behind the other in it. -/
theorem Tree.FromSource.marks {t : Tree} (h : t.FromSource) {p : Program}
    (hp : t.program = .ok p) :
    (∀ u ∈ p.flatMap Decl.marks, u.site.file = t.file) ∧
      (p.flatMap Decl.marks).Pairwise fun u v => u.site.Before v.site :=
  h.stands hp Phrase.Item.marks_sublist

theorem Located.isDuplicate_of_mem_clashes {seen ds : Located} :
    ∀ f ∈ clashes seen ds, f.diagnostic.isDuplicate = true := by
  induction ds generalizing seen with
  | nil => exact List.forall_mem_nil _
  | cons x ds ih =>
    refine List.forall_mem_append.mpr ⟨?_, ih⟩
    cases seen.first? x.2.name.lexeme with
    | some first => exact List.forall_mem_singleton.mpr (isDuplicate_duplicate _ _)
    | none =>
      intro f hf
      obtain ⟨d, hd, rfl⟩ := List.mem_map.mp hf
      exact Token.isDuplicate_of_mem_clashes d hd

theorem SymbolTable.get?_foldl_declareNew_of_ne {t : SymbolTable} {ss : List Symbol} {x : String}
    (h : ∀ s ∈ ss, s.name ≠ x) : (ss.foldl declareNew t).get? x = t.get? x := by
  induction ss generalizing t with
  | nil => rfl
  | cons s ss ih =>
    obtain ⟨hs, hss⟩ := List.forall_mem_cons.mp h
    refine (ih hss).trans ?_
    rw [get?_declareNew, if_neg hs, Option.or_none]

/-- The symbols of locals have the name of their function in front. -/
theorem Frame.colon_mem_body (f : Frame) (ns : List Node) :
    ∀ s ∈ (f.body ns).2, ':' ∈ s.name.toList := by
  induction ns generalizing f with
  | nil => exact List.forall_mem_nil _
  | cons n ns ih =>
    rw [body]
    split
    · exact ih f
    · next st _ =>
      refine List.forall_mem_append.mpr ⟨?_, ih _⟩
      cases st with
      | «local» name type init =>
        simp only [statement, declare]
        split
        · exact List.forall_mem_nil _
        · exact List.forall_mem_singleton.mpr (Symbol.colon_mem_qualify _ _)
      | _ => exact List.forall_mem_nil _

/-- The declarations of files, each with the number of its file. -/
def Located.ofFiles (files : List (Nat × Tree)) : Except Malformed Located :=
  (files.mapM fun (x : Nat × Tree) => x.2.program.map fun p => p.map (x.1, ·)).map List.flatten

namespace ReadFile

variable {b : List ReadFile}

theorem ofFiles_numbered (b : List ReadFile) :
    Located.ofFiles (b.map numbered) = .ok (located b) := by
  have hfiles : (b.map numbered).mapM
      (fun (x : Nat × Tree) => x.2.program.map fun p => p.map (x.1, ·)) =
        .ok (b.map fun f => f.program.map (f.origin, ·)) := by
    induction b with
    | nil => rfl
    | cons f b ih =>
      rw [List.map_cons, List.mapM_cons, ih, numbered, f.read]
      rfl
  rw [Located.ofFiles, hfiles]
  rfl

/-- Files with labels of their own have all their tokens at distinct places. -/
theorem nodup_sites (hsource : ∀ f ∈ b, f.tree.FromSource)
    (hlabels : (b.map (·.tree.file)).Nodup) {g : Decl → List Token}
    (hg : ∀ i : Phrase.Item, (g i.decl).Sublist i.tokens) :
    (((located b).flatMap fun x => g x.2).map (·.site)).Nodup := by
  have hstands (f : ReadFile) (hf : f ∈ b) := (hsource f hf).stands f.read hg
  have hsites : ((located b).flatMap fun x => g x.2).map (·.site) =
      b.flatMap fun f => (f.program.flatMap g).map (·.site) := by
    simp only [located, List.flatMap_assoc, List.flatMap_map, List.map_flatMap]
  rw [hsites, List.nodup_flatMap]
  constructor
  · intro f hf
    exact List.pairwise_map.mpr ((hstands f hf).2.imp fun hlt => hlt.ne)
  · refine (List.pairwise_map.mp hlabels).imp_of_mem fun {f f'} hf hf' hne => ?_
    intro s hs hs'
    obtain ⟨u, hu, rfl⟩ := List.mem_map.mp hs
    obtain ⟨v, hv, hsame⟩ := List.mem_map.mp hs'
    exact hne (by rw [← (hstands f hf).1 u hu, ← (hstands f' hf').1 v hv, hsame])

/-- Files with labels of their own declare things at distinct places. -/
theorem distinct_of_labels (hsource : ∀ f ∈ b, f.tree.FromSource)
    (hlabels : (b.map (·.tree.file)).Nodup) : Distinct b := by
  constructor
  · have hname : ∀ i : Phrase.Item, [i.decl.name].Sublist i.tokens := fun i =>
      (List.sublist_append_left [i.decl.name] _).trans i.marks_sublist
    have hsites := nodup_sites hsource hlabels (g := fun d => [d.name]) hname
    rwa [← List.map_eq_flatMap, List.map_map] at hsites
  · intro d hd
    have hsites := nodup_sites hsource hlabels Phrase.Item.marks_sublist
    obtain ⟨x, hx, rfl⟩ := List.mem_map.mp hd
    refine hsites.sublist (List.Sublist.trans ?_
      ((List.sublist_flatten_of_mem (List.mem_map_of_mem hx)).map _))
    rw [Decl.marks, List.map_cons, List.map_map]
    exact List.sublist_cons_self _ _

/-- Files that were parsed, with labels of their own. -/
theorem exists_distinct {outcomes : List (Option Tree)}
    (h : ∀ t, some t ∈ outcomes → t.FromSource)
    (hlabels : (outcomes.reduceOption.map (·.file)).Nodup) :
    ∃ b : List ReadFile, b.map numbered = parsedFiles outcomes ∧
      b.map (·.tree) = outcomes.reduceOption ∧ (∀ f ∈ b, f.tree.FromSource) ∧
      (b.map (·.tree.file)).Nodup ∧ Distinct b := by
  obtain ⟨b, hb, htrees, hsource⟩ := exists_parsed h
  have hfiles : (b.map (·.tree.file)).Nodup := by
    rw [← htrees, List.map_map] at hlabels
    exact hlabels
  exact ⟨b, hb, htrees, hsource, hfiles, distinct_of_labels hsource hfiles⟩

/-- All complaints about a second declaration. -/
theorem duplicates_eq (h : Distinct b) :
    (Analysis.ofFiles (b.map numbered)).faults.filter (·.diagnostic.isDuplicate) =
      Located.clashes [] (located b) ++ (located b).localClashes := by
  have hmerged : (Merged.ofFiles (b.map numbered)).faults.filter (·.diagnostic.isDuplicate) =
      Located.clashes [] (located b) := by
    rw [(merged_follows h).1]
    exact List.filter_eq_self.mpr Located.isDuplicate_of_mem_clashes
  have hresolved : ((Merged.ofFiles (b.map numbered)).resolved.flatMap (·.2)).filter
      (·.diagnostic.isDuplicate) = [] := by
    refine List.filter_eq_nil_iff.mpr fun f hf => ?_
    have hitems : ∀ x ∈ b.map numbered, ∀ n ∈ x.2.items, n.All fun _ => True :=
      fun x _ n _ => n.all_of_forall fun _ => trivial
    rw [(Merged.unrepeated_resolved (P := fun _ _ => True) hitems f hf).2]
    exact Bool.false_ne_true
  have hbodies : (bodyFaults (Merged.ofFiles (b.map numbered)).typedSymbols b).filter
      (·.diagnostic.isDuplicate) = (located b).localClashes := by
    refine filter_bodyFaults
      (F := fun d => Token.clashes (d.params.map (·.name)) d.locals) (fun d hd => ?_)
      fun i r g hr hg => duplicates_check h hr hg
    cases d with
    | routine r => cases hd
    | _ => rfl
  rw [faults_eq, List.filter_append, List.filter_append, hmerged, hresolved, hbodies,
    List.append_nil]

theorem colon_mem_localSymbols (t : SymbolTable) (b : List ReadFile) :
    ∀ s ∈ localSymbols t b, ':' ∈ s.name.toList := by
  intro s hs
  obtain ⟨f, -, g, -, hs⟩ := mem_localSymbols.mp hs
  have hbody : s ∈ (Frame.body (g.opening t) g.body).2 := by
    cases hacc : g.isAccepted t with
    | false =>
      simp only [Function.check, hacc] at hs
      cases hs
    | true => simpa only [Function.check, hacc, if_true] using hs
  exact Frame.colon_mem_body _ _ s hbody

/-- The symbol of a top-level name is that of its first declaration, but for its types. -/
theorem get?_first (h : Distinct b) {x : String} (hx : ':' ∉ x.toList) :
    ((Analysis.ofFiles (b.map numbered)).symbols.get? x).map (fun s => (s.name, s.kind, s.site)) =
      ((located b).first? x).map fun d => (x, d.2.head.kind, d.2.name.site) := by
  have hlocals : ∀ s ∈ localSymbols (Merged.ofFiles (b.map numbered)).typedSymbols b, s.name ≠ x :=
    fun s hs hname => hx (hname ▸ colon_mem_localSymbols _ b s hs)
  have htypes := SymbolTable.map_recorded (g := fun s => (s.name, s.kind, s.site))
    (fun _ _ _ => rfl) (Merged.ofFiles (b.map numbered)).symbols
    (Merged.ofFiles (b.map numbered)).resolved x
  rw [symbols_eq, SymbolTable.get?_foldl_declareNew_of_ne hlocals]
  refine htypes.trans ?_
  rw [(merged_follows h).2.2.heads x hx, Option.map_map]
  cases hfirst : (located b).first? x with
  | none => rfl
  | some d =>
    obtain ⟨-, rfl⟩ := Located.name_of_first? hfirst
    have hkey : d.2.head.symbol.name = d.2.name.lexeme := d.2.key_head
    have hsite : d.2.head.symbol.site = d.2.name.site := congrArg Token.site d.2.site_head
    simp only [Option.map_some, Function.comp_apply, hkey, hsite]
    rfl

end ReadFile

/-- Let the files of a batch have labels of their own. For every top-level name the table has the
first declaration; all later ones are complained about, and so are repeated parameters of a function
that is the first of its name and, in every function, locals whose names are taken. A complaint
stands at the later name and notes the place of the first. If the batch is valid, the table has the
symbols of its program and no others. -/
theorem first_seen_wins (outcomes : List (Option Tree))
    (h : ∀ t, some t ∈ outcomes → t.FromSource)
    (hlabels : (outcomes.reduceOption.map (·.file)).Nodup) :
    ∃ ds, Located.ofFiles (parsedFiles outcomes) = .ok ds ∧
      let a := Analysis.ofOutcomes outcomes
      (ds.Plain ∧ ∀ x : String, ':' ∉ x.toList →
        (a.symbols.get? x).map (fun s => (s.name, s.kind, s.site)) =
          (ds.first? x).map fun d => (x, d.2.head.kind, d.2.name.site)) ∧
      (a.faults.filter (·.diagnostic.isDuplicate) =
        Located.clashes [] ds ++ ds.localClashes) ∧
      (∀ name first, (duplicate name first).place = .site name.site ∧
        (duplicate name first).notes.map (·.site) = [some first]) ∧
      (a.valid = true →
        ∀ x s, a.symbols.get? x = some s ↔ ds.program.HasSymbol s ∧ s.name = x) := by
  obtain ⟨b, hb, -, -, -, hdistinct⟩ := ReadFile.exists_distinct h hlabels
  rw [Analysis.ofOutcomes, ← hb]
  refine ⟨_, ReadFile.ofFiles_numbered b, ⟨ReadFile.plain_located b, fun x hx => ?_⟩,
    ReadFile.duplicates_eq hdistinct, fun name first => ⟨rfl, rfl⟩, fun hv => ?_⟩
  · exact ReadFile.get?_first hdistinct hx
  · exact ReadFile.get?_symbols_iff
      (ReadFile.no_faults_iff.mp ((Analysis.valid_iff_no_faults _).mp hv))

/-- A function and a variable are declared again in another file, the function as the second one
with a parameter that is repeated and a local with the name of a parameter. -/
theorem first_seen_wins_two_files :
    let outcomes := [
      Tree.ofText? "a" "func f(x: int, x: int): int { var x: int; return x; }\nvar g: int;", none,
      Tree.ofText? "b" "type g = int;\nfunc f(z: int, z: int): int { var z: int; return z; }"]
    (outcomes.reduceOption.map (·.file)).Nodup ∧
      ∃ ds, Located.ofFiles (parsedFiles outcomes) = .ok ds ∧
        (Located.clashes [] ds ++ ds.localClashes).map (fun f => (f.origin, f.diagnostic.key.2)) =
          [(0, 1, 16), (2, 1, 6), (2, 2, 6), (0, 1, 35), (2, 2, 35)] := by
  rw [Tree.ofText?_ofList, Tree.ofText?_ofList]
  intro outcomes
  have hlabels : (outcomes.reduceOption.map (·.file)).Nodup := by decide +kernel
  obtain ⟨ds, hds, -, hduplicates, -⟩ :=
    first_seen_wins outcomes Tree.fromSource_of_mem_pair hlabels
  refine ⟨hlabels, ds, hds, ?_⟩
  rw [← hduplicates]
  decide +kernel

end ThreeAddress
