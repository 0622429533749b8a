import Mathlib.Data.List.Nodup
import ThreeAddress.Analysis.Declaration
import ThreeAddress.Proofs.Program
import ThreeAddress.Proofs.Results

namespace ThreeAddress

namespace Decl

/-- What a declaration brings into the symbol table. -/
def declarations : Decl → List Declaration
  | .alias name target => [.alias name target]
  | .global name type init => [.global name type init]
  | .routine r =>
    .function r.name r.ret (r.params.map (·.type)) ::
      r.params.zipIdx.map fun (q, slot) => .param r.name slot q.name q.type

def routine? : Decl → Option Routine
  | .routine r => some r
  | _ => none

end Decl

namespace Function

theorem routine_eq_ok {f : Function} {r : Routine} (h : f.routine = .ok r) :
    r.name = f.name ∧ r.params = f.params ∧ r.ret = f.ret ∧ f.body.mapM Stmt.ofNode = .ok r.body := by
  rw [routine] at h
  obtain ⟨body, hb, h⟩ := bind_eq_ok.mp h
  cases h
  exact ⟨rfl, rfl, rfl, hb⟩

end Function

namespace Decl

/-- The item that a node reads as brings the same declarations, and the same function if any. -/
theorem item_of_ofNode {n : Node} {d : Decl} (h : ofNode n = .ok d) :
    ∃ i, Item.ofNode n = .ok i ∧ Declaration.ofItem i = d.declarations ∧
      ((∃ f r, i = .func f ∧ d = .routine r ∧ f.routine = .ok r) ∨
        (∀ f, i ≠ .func f) ∧ d.routine? = none) := by
  rw [ofNode] at h
  obtain ⟨i, hi, h⟩ := bind_eq_ok.mp h
  refine ⟨i, hi, ?_⟩
  cases i with
  | type name target =>
    cases h
    exact ⟨rfl, .inr ⟨fun f hf => Item.noConfusion hf, rfl⟩⟩
  | «global» name ty init =>
    cases h
    exact ⟨rfl, .inr ⟨fun f hf => Item.noConfusion hf, rfl⟩⟩
  | finish eof => cases h
  | func f =>
    obtain ⟨r, hf, h⟩ := bind_eq_ok.mp h
    cases h
    obtain ⟨hn, hp, hr, _⟩ := Function.routine_eq_ok hf
    refine ⟨?_, .inl ⟨f, r, rfl, rfl, hf⟩⟩
    simp only [Declaration.ofItem, Declaration.ofFunction, declarations, hn, hp, hr]

end Decl

/-- A file of a batch, by its number and tree, with the program that it reads as. -/
structure ReadFile where
  origin : Nat
  tree : Tree
  program : Program
  read : tree.program = .ok program
  written : program.Written

namespace ReadFile

def numbered (f : ReadFile) : Nat × Tree := (f.origin, f.tree)

theorem nodes (f : ReadFile) :
    List.Forall₂ (fun n d => Decl.ofNode n = .ok d) f.tree.declarations f.program :=
  forall₂_of_mapM f.read

theorem items (f : ReadFile) :
    ∃ is : List Item, f.tree.declarations.map Item.ofNode = is.map .ok ∧
      is.flatMap Declaration.ofItem = f.program.flatMap Decl.declarations := by
  have hn := f.nodes
  generalize f.tree.declarations = ns at hn ⊢
  generalize f.program = ds at hn ⊢
  induction hn with
  | nil => exact ⟨[], rfl, rfl⟩
  | cons h _ ih =>
    obtain ⟨i, hi, hd, _⟩ := Decl.item_of_ofNode h
    obtain ⟨is, his, hds⟩ := ih
    exact ⟨i :: is, by simp [hi, his], by simp [hd, hds]⟩

theorem findings_eq (f : ReadFile) :
    f.tree.findings = (f.program.flatMap Decl.declarations).map .declared := by
  obtain ⟨is, his, hds⟩ := f.items
  simp only [Tree.findings, his, List.filterMap_map, List.flatMap_map, ← hds, List.map_flatMap]
  simp

end ReadFile

/-- The declarations of a batch, each with the number of its file. -/
abbrev Located := List (Nat × Decl)

namespace Located

variable (ds : Located)

def declarations : List Declaration := ds.flatMap (·.2.declarations)

def findings : List (Nat × Finding) :=
  ds.flatMap fun x => x.2.declarations.map (x.1, .declared ·)

def accepted : List Accepted := ds.flatMap fun x => x.2.declarations.map (⟨x.1, ·⟩)

end Located

namespace Merged

/-- The table with the symbols of declarations added. -/
def enrolled (t : SymbolTable) (ds : List Declaration) : SymbolTable :=
  ds.foldl (fun t d => t.declareNew d.symbol) t

/-- No declaration has a name that is taken when its turn comes. -/
def Fresh : SymbolTable → List Declaration → Prop
  | _, [] => True
  | t, d :: ds => t.get? d.key = none ∧ Fresh (t.declareNew d.symbol) ds

theorem fresh_append (t : SymbolTable) (ds es : List Declaration) :
    Fresh t (ds ++ es) ↔ Fresh t ds ∧ Fresh (enrolled t ds) es := by
  induction ds generalizing t with
  | nil => simp [Fresh, enrolled]
  | cons d ds ih =>
    rw [List.cons_append, Fresh, Fresh, ih, and_assoc]
    rfl

theorem enroll_of_none {t : SymbolTable} {d : Declaration} (h : t.get? d.key = none) :
    enroll t d = .ok (t.declareNew d.symbol) := by
  have hn : t.get? d.symbol.name = none := h
  simp [enroll, SymbolTable.declare, SymbolTable.declareNew, hn, Except.mapError]

theorem enroll_of_some {t : SymbolTable} {d : Declaration} {first : Symbol}
    (h : t.get? d.key = some first) : enroll t d = .error (duplicate d.site first.site) := by
  have hn : t.get? d.symbol.name = some first := h
  simp [enroll, SymbolTable.declare, hn, Except.mapError]

theorem get?_declareNew_of_some {t : SymbolTable} {s first : Symbol} {name : String}
    (h : t.get? name = some first) : (t.declareNew s).get? name = some first := by
  rw [SymbolTable.get?_declareNew, h, Option.some_or]

/-- What takes part goes on doing so. -/
theorem counts_declareNew {t : SymbolTable} {d : Declaration} (s : Symbol)
    (h : counts t d = true) : counts (t.declareNew s) d = true := by
  cases d with
  | param owner slot name ty =>
    cases ho : t.get? owner.lexeme with
    | none => simp [counts, ho] at h
    | some first =>
      rw [counts, get?_declareNew_of_some ho, ← ho]
      exact h
  | _ => rfl

theorem merge_of_fresh {t : SymbolTable} (i : Nat) {ds : List Declaration}
    (rest : List (Nat × Finding)) (hc : ∀ d ∈ ds, counts t d = true) (hf : Fresh t ds) :
    merge t (ds.map (i, Finding.declared ·) ++ rest) =
      let merged := merge (enrolled t ds) rest
      { merged with accepted := ds.map (⟨i, ·⟩) ++ merged.accepted } := by
  induction ds generalizing t with
  | nil => rfl
  | cons d ds ih =>
    obtain ⟨hn, hf⟩ := hf
    have hcs : ∀ e ∈ ds, counts (t.declareNew d.symbol) e = true := fun e he =>
      counts_declareNew _ (hc e (List.mem_cons_of_mem d he))
    simp only [List.map_cons, List.cons_append, merge, hc d List.mem_cons_self, if_true,
      enroll_of_none hn, ih hcs hf]
    rfl

theorem faults_of_not_fresh {t : SymbolTable} (i : Nat) {ds : List Declaration}
    (rest : List (Nat × Finding)) (hc : ∀ d ∈ ds, counts t d = true) (hf : ¬ Fresh t ds) :
    (merge t (ds.map (i, Finding.declared ·) ++ rest)).faults ≠ [] := by
  induction ds generalizing t with
  | nil => exact absurd trivial hf
  | cons d ds ih =>
    simp only [List.map_cons, List.cons_append, merge, hc d List.mem_cons_self, if_true]
    cases hn : t.get? d.key with
    | some first =>
      rw [enroll_of_some hn]
      exact List.cons_ne_nil _ _
    | none =>
      rw [enroll_of_none hn]
      refine ih (fun e he => counts_declareNew _ (hc e (List.mem_cons_of_mem d he))) ?_
      exact fun h => hf ⟨hn, h⟩

/-- The parameters of a function take part once it has its name. -/
theorem counts_params {t : SymbolTable} {r : Routine} {d : Declaration}
    (hd : d ∈ r.params.zipIdx.map fun (q, slot) => .param r.name slot q.name q.type)
    (hn : t.get? r.name.lexeme = none) :
    counts (t.declareNew (Declaration.symbol (.function r.name r.ret (r.params.map (·.type))))) d
      = true := by
  obtain ⟨⟨q, slot⟩, _, rfl⟩ := List.mem_map.mp hd
  rw [counts, SymbolTable.get?_declareNew, hn, Option.none_or]
  simp [Declaration.symbol, Declaration.key, Declaration.site, Declaration.kind,
    Symbol.isFunctionAt, Symbol.declared]

theorem merge_decl_of_fresh {t : SymbolTable} (i : Nat) (d : Decl) (rest : List (Nat × Finding))
    (hf : Fresh t d.declarations) :
    merge t (d.declarations.map (i, Finding.declared ·) ++ rest) =
      let merged := merge (enrolled t d.declarations) rest
      { merged with accepted := d.declarations.map (⟨i, ·⟩) ++ merged.accepted } := by
  cases d with
  | «alias» name target => exact merge_of_fresh i rest (by simp [counts, Decl.declarations]) hf
  | «global» name ty init => exact merge_of_fresh i rest (by simp [counts, Decl.declarations]) hf
  | routine r =>
    obtain ⟨hn, hp⟩ := hf
    have hps := merge_of_fresh i rest (fun e he => counts_params he hn) hp
    simp only [Decl.declarations, List.map_cons, List.cons_append, merge, counts, if_true,
      enroll_of_none hn, hps]
    rfl

theorem faults_decl_of_not_fresh {t : SymbolTable} (i : Nat) (d : Decl)
    (rest : List (Nat × Finding)) (hf : ¬ Fresh t d.declarations) :
    (merge t (d.declarations.map (i, Finding.declared ·) ++ rest)).faults ≠ [] := by
  cases d with
  | «alias» name target => exact faults_of_not_fresh i rest (by simp [counts, Decl.declarations]) hf
  | «global» name ty init => exact faults_of_not_fresh i rest (by simp [counts, Decl.declarations]) hf
  | routine r =>
    simp only [Decl.declarations, List.map_cons, List.cons_append, merge, counts, if_true]
    cases hn : t.get? r.name.lexeme with
    | some first =>
      rw [enroll_of_some (d := .function r.name r.ret _) hn]
      exact List.cons_ne_nil _ _
    | none =>
      rw [enroll_of_none (d := .function r.name r.ret _) hn]
      exact faults_of_not_fresh i rest (fun e he => counts_params he hn) fun h => hf ⟨hn, h⟩

/-- Fresh declarations in front of others. -/
theorem merge_findings_append {t : SymbolTable} {ds : Located} (rest : List (Nat × Finding))
    (hf : Fresh t ds.declarations) :
    merge t (ds.findings ++ rest) =
      let merged := merge (enrolled t ds.declarations) rest
      { merged with accepted := ds.accepted ++ merged.accepted } := by
  induction ds generalizing t with
  | nil => rfl
  | cons x ds ih =>
    obtain ⟨hx, hs⟩ := (fresh_append t x.2.declarations _).mp hf
    have hm := merge_decl_of_fresh x.1 x.2 (Located.findings ds ++ rest) hx
    have hfindings : Located.findings (x :: ds) ++ rest =
        x.2.declarations.map (x.1, Finding.declared ·) ++ (Located.findings ds ++ rest) :=
      List.append_assoc _ _ _
    rw [ih hs] at hm
    rw [hfindings]
    refine hm.trans ?_
    simp [Located.declarations, Located.accepted, enrolled, List.foldl_append]

theorem merge_findings {t : SymbolTable} {ds : Located} (hf : Fresh t ds.declarations) :
    merge t ds.findings = ⟨enrolled t ds.declarations, ds.accepted, []⟩ := by
  have h := merge_findings_append [] hf
  simp only [merge, List.append_nil] at h
  exact h

theorem faults_findings {t : SymbolTable} {ds : Located} (hf : ¬ Fresh t ds.declarations) :
    (merge t ds.findings).faults ≠ [] := by
  induction ds generalizing t with
  | nil => exact absurd trivial hf
  | cons x ds ih =>
    by_cases hx : Fresh t x.2.declarations
    · have hm := merge_decl_of_fresh x.1 x.2 (Located.findings ds) hx
      have hs : ¬ Fresh (enrolled t x.2.declarations) (Located.declarations ds) := fun hs =>
        hf ((fresh_append t x.2.declarations _).mpr ⟨hx, hs⟩)
      intro h
      exact ih hs ((congrArg Merged.faults hm).symm.trans h)
    · exact faults_decl_of_not_fresh x.1 x.2 (Located.findings ds) hx

theorem fresh_iff (t : SymbolTable) (ds : List Declaration) :
    Fresh t ds ↔ (ds.map (·.key)).Nodup ∧ ∀ d ∈ ds, t.get? d.key = none := by
  induction ds generalizing t with
  | nil => simp [Fresh]
  | cons d ds ih =>
    have hget (e : Declaration) : (t.declareNew d.symbol).get? e.key = none ↔
        t.get? e.key = none ∧ d.key ≠ e.key := by
      rw [SymbolTable.get?_declareNew, Option.or_eq_none_iff, ite_eq_right_iff]
      simp [Declaration.symbol, Symbol.declared]
    simp only [Fresh, ih, hget, List.map_cons, List.nodup_cons, List.mem_map, List.mem_cons,
      forall_eq_or_imp, not_exists, not_and, forall_and]
    constructor
    · rintro ⟨hd, hn, hs, hne⟩
      exact ⟨⟨fun e he h => hne e he h.symm, hn⟩, hd, hs⟩
    · rintro ⟨⟨hne, hn⟩, hd, hs⟩
      exact ⟨hd, hn, hs, fun e he h => hne e he h.symm⟩

theorem get?_enrolled_of_some {t : SymbolTable} {name : String} {s : Symbol}
    (ds : List Declaration) (h : t.get? name = some s) : (enrolled t ds).get? name = some s := by
  induction ds generalizing t with
  | nil => exact h
  | cons d ds ih => exact ih (get?_declareNew_of_some h)

/-- Every fresh declaration has its symbol. -/
theorem get?_enrolled {t : SymbolTable} {ds : List Declaration} (hf : Fresh t ds)
    {d : Declaration} (hd : d ∈ ds) : (enrolled t ds).get? d.key = some d.symbol := by
  induction ds generalizing t with
  | nil => cases hd
  | cons e ds ih =>
    obtain ⟨he, hf⟩ := hf
    rcases List.mem_cons.mp hd with rfl | hd
    · refine get?_enrolled_of_some ds ?_
      rw [SymbolTable.get?_declareNew, he, Option.none_or]
      exact if_pos rfl
    · exact ih hf hd

/-- There are no symbols but those of the declarations. -/
theorem of_get?_enrolled {t : SymbolTable} {ds : List Declaration} {name : String} {s : Symbol}
    (h : (enrolled t ds).get? name = some s) :
    t.get? name = some s ∨ ∃ d ∈ ds, d.key = name ∧ d.symbol = s := by
  induction ds generalizing t with
  | nil => exact .inl h
  | cons e ds ih =>
    rcases ih h with ht | ⟨d, hd, hk⟩
    · rw [SymbolTable.get?_declareNew, Option.or_eq_some_iff] at ht
      obtain ht | ⟨_, ht⟩ := ht
      · exact .inl ht
      · split at ht
        · next hn => exact .inr ⟨e, List.mem_cons_self, hn, Option.some.inj ht⟩
        · cases ht
    · exact .inr ⟨d, List.mem_cons_of_mem e hd, hk⟩

/-- In any batch, what is accepted is fresh in its turn, and the table is that of what is
accepted. -/
theorem merge_accepted (t : SymbolTable) (xs : List (Nat × Finding)) :
    Fresh t ((merge t xs).accepted.map (·.declaration)) ∧
      (merge t xs).symbols = enrolled t ((merge t xs).accepted.map (·.declaration)) := by
  induction xs generalizing t with
  | nil => exact ⟨trivial, rfl⟩
  | cons x xs ih =>
    obtain ⟨i, x⟩ := x
    cases x with
    | unreadable m => exact ih t
    | declared d =>
      rw [merge]
      split
      · cases hn : t.get? d.key with
        | some first =>
          rw [enroll_of_some hn]
          exact ih t
        | none =>
          rw [enroll_of_none hn]
          obtain ⟨hfresh, hsymbols⟩ := ih (t.declareNew d.symbol)
          exact ⟨⟨hn, hfresh⟩, hsymbols⟩
      · exact ih t

/-- Every accepted declaration has its symbol. -/
theorem get?_of_accepted {xs : List (Nat × Finding)} {a : Accepted}
    (h : a ∈ (merge .empty xs).accepted) :
    (merge .empty xs).symbols.get? a.declaration.key = some a.declaration.symbol := by
  obtain ⟨hfresh, hsymbols⟩ := merge_accepted .empty xs
  rw [hsymbols]
  exact get?_enrolled hfresh (List.mem_map_of_mem h)

/-- Every symbol is that of an accepted declaration. -/
theorem accepted_of_get? {xs : List (Nat × Finding)} {name : String} {s : Symbol}
    (h : (merge .empty xs).symbols.get? name = some s) :
    ∃ a ∈ (merge .empty xs).accepted, a.declaration.key = name ∧ a.declaration.symbol = s := by
  rw [(merge_accepted .empty xs).2] at h
  rcases of_get?_enrolled h with h | ⟨d, hd, hk, hs⟩
  · simp at h
  · obtain ⟨a, ha, rfl⟩ := List.mem_map.mp hd
    exact ⟨a, ha, hk, hs⟩

theorem nodup_accepted (xs : List (Nat × Finding)) :
    ((merge .empty xs).accepted.map (·.declaration.key)).Nodup := by
  have h := ((fresh_iff _ _).mp (merge_accepted .empty xs).1).1
  rw [List.map_map] at h
  exact h

end Merged

namespace Symbol

theorem toList_qualify (func name : String) :
    (qualify func name).toList = func.toList ++ ':' :: ':' :: name.toList := by
  simp [qualify, toString]

theorem colon_mem_qualify (func name : String) : ':' ∈ (qualify func name).toList := by
  simp [toList_qualify]

/-- The name of a function ends where the first colon stands. -/
theorem qualify_inj {f g x y : String} (hf : ':' ∉ f.toList) (hg : ':' ∉ g.toList)
    (h : qualify f x = qualify g y) : f = g ∧ x = y := by
  have hl := congrArg String.toList h
  rw [toList_qualify, toList_qualify] at hl
  have htake (a b : List Char) (ha : ':' ∉ a) :
      (a ++ ':' :: b).takeWhile (· != ':') = a := by
    rw [List.takeWhile_append_of_pos]
    · simp
    · intro c hc
      exact bne_iff_ne.mpr fun he => ha (he ▸ hc)
  have hfg : f.toList = g.toList := by
    rw [← htake f.toList (':' :: x.toList) hf, hl, htake _ _ hg]
  rw [hfg, List.append_cancel_left_eq] at hl
  simp only [List.cons.injEq, true_and] at hl
  exact ⟨String.toList_injective hfg, String.toList_injective hl⟩

end Symbol

namespace Decl

/-- The parameters of a function; other declarations have none. -/
def params : Decl → List Param
  | .routine r => r.params
  | _ => []

theorem keys_declarations (d : Decl) :
    d.declarations.map (·.key) =
      d.name.lexeme :: d.params.map fun q => Symbol.qualify d.name.lexeme q.name.lexeme := by
  cases d with
  | «alias» name target => rfl
  | «global» name ty init => rfl
  | routine r =>
    have hz : r.params.zipIdx.map (fun x => Symbol.qualify r.name.lexeme x.1.name.lexeme) =
        r.params.map fun q => Symbol.qualify r.name.lexeme q.name.lexeme := by
      conv_rhs => rw [← List.zipIdx_map_fst 0 r.params, List.map_map]
      rfl
    simp only [declarations, List.map_cons, List.map_map, Function.comp_def]
    exact congrArg _ hz

theorem name_mem_names (d : Decl) : d.name ∈ d.names := by
  cases d <;> simp [name, names]

end Decl

namespace Program

/-- Names in the table are distinct if the names of declarations are, and in each function the names
of parameters. -/
theorem nodup_keys_iff {p : Program} (hw : ∀ d ∈ p, ':' ∉ d.name.lexeme.toList) :
    (p.flatMap fun d => d.declarations.map (·.key)).Nodup ↔
      (p.map (·.name.lexeme)).Nodup ∧ ∀ d ∈ p, (d.params.map (·.name.lexeme)).Nodup := by
  have hparams (d : Decl) (hd : d ∈ p) : (d.declarations.map (·.key)).Nodup ↔
      (d.params.map (·.name.lexeme)).Nodup := by
    have hname : d.name.lexeme ∉
        d.params.map fun q => Symbol.qualify d.name.lexeme q.name.lexeme := by
      intro h
      obtain ⟨q, _, hq⟩ := List.mem_map.mp h
      exact hw d hd (hq ▸ Symbol.colon_mem_qualify _ _)
    have hinj : Function.Injective (Symbol.qualify d.name.lexeme) := fun x y h =>
      (Symbol.qualify_inj (hw d hd) (hw d hd) h).2
    rw [Decl.keys_declarations, List.nodup_cons, and_iff_right hname]
    rw [← List.nodup_map_iff hinj (l := d.params.map (·.name.lexeme)), List.map_map]
    rfl
  have hdisjoint (d e : Decl) (hd : d ∈ p) (he : e ∈ p) :
      List.Disjoint (d.declarations.map (·.key)) (e.declarations.map (·.key)) ↔
        d.name.lexeme ≠ e.name.lexeme := by
    rw [Decl.keys_declarations, Decl.keys_declarations]
    constructor
    · intro h hn
      exact h List.mem_cons_self (hn ▸ List.mem_cons_self)
    · intro hn k hk hk'
      rcases List.mem_cons.mp hk with rfl | hk
      · rcases List.mem_cons.mp hk' with h | hk'
        · exact hn h
        · obtain ⟨q, _, hq⟩ := List.mem_map.mp hk'
          exact hw d hd (hq ▸ Symbol.colon_mem_qualify _ _)
      · obtain ⟨q, _, rfl⟩ := List.mem_map.mp hk
        rcases List.mem_cons.mp hk' with h | hk'
        · exact hw e he (h ▸ Symbol.colon_mem_qualify _ _)
        · obtain ⟨q', _, hq⟩ := List.mem_map.mp hk'
          exact hn (Symbol.qualify_inj (hw e he) (hw d hd) hq).1.symm
  rw [List.nodup_flatMap, and_comm, List.Nodup, List.pairwise_map]
  refine and_congr ?_ (forall₂_congr hparams)
  exact List.Pairwise.iff_of_mem fun hd he => hdisjoint _ _ hd he

end Program

end ThreeAddress
