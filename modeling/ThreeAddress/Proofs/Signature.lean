import ThreeAddress.Analysis.Resolution
import ThreeAddress.Proofs.AliasChain
import ThreeAddress.Proofs.Merging

namespace ThreeAddress

namespace Numeral

theorem unsigned_of_all {radix : Nat} {s : List Char}
    (h : s.all (fun c => (digit? radix c).isSome) = true) : unsigned s = s := by
  unfold unsigned
  split
  · have hd : (digit? radix '+').isSome = true := List.all_eq_true.mp h _ List.mem_cons_self
    have hp : digitValue '+' = none := by decide
    simp [digit?, hp] at hd
  · rfl

/-- The value of a well-formed integer literal is its number if that fits in 64 bits. -/
theorem value?_eq {s : List Char} (hc : check s = .ok ()) (hf : isFloat s = false) :
    value? s = (magnitude? s).filter (· < UInt64.size) := by
  unfold check at hc
  rw [hf] at hc
  simp only [value?, magnitude?]
  generalize splitRadix (splitSuffix s).1 = q at hc ⊢
  obtain ⟨digits, radix⟩ := q
  simp only [checkInt, Bool.false_eq_true, if_false] at hc ⊢
  split at hc
  · cases hc
  · next hne =>
    split at hc
    · next hall => rw [word64?, unsigned_of_all hall, if_neg hne]
    · cases hc

theorem value?_isSome_iff {s : List Char} (hc : check s = .ok ()) (hf : isFloat s = false) :
    (value? s).isSome = true ↔ ∃ v < UInt64.size, magnitude? s = some v := by
  rw [value?_eq hc hf, Option.isSome_iff_exists]
  simp only [Option.filter_eq_some_iff, decide_eq_true_eq]
  exact exists_congr fun v => and_comm

end Numeral

theorem literalFaults_eq_nil_iff {t : Token} (h : t.IsValue) :
    literalFaults t = [] ↔ t.InRange := by
  have hn : t.kind = .number → Numeral.check t.lexeme.toList = .ok () := by
    cases h with
    | name hk => intro h; rw [hk] at h; cases h
    | literal _ hn => exact hn
  have hv (hk : t.kind = .number) (hf : Numeral.isFloat t.lexeme.toList = false) :=
    Numeral.value?_isSome_iff (hn hk) hf
  unfold literalFaults Token.InRange
  simp only [ite_eq_right_iff, reduceCtorEq, imp_false, not_and, Bool.not_eq_true,
    Option.isNone_iff_eq_none, Option.eq_none_iff_forall_ne_some]
  refine forall_congr' fun hk => forall_congr' fun hf => ?_
  rw [← hv hk hf, Option.isSome_iff_exists]
  simp

namespace Declaration

/-- The token for the type of what is declared. -/
def type : Declaration → Token
  | .alias _ target => target
  | .global _ type _ => type
  | .function _ ret _ => ret
  | .param _ _ _ type => type

def paramTypes : Declaration → List Token
  | .function _ _ params => params
  | _ => []

end Declaration

namespace Program

variable (p : Program)

/-- Types are found for what a declaration shows to others. -/
def HeaderFits : Decl → Prop
  | .alias _ target => ∃ ty, p.Denotes target ty
  | .global _ type init =>
    ∃ ty, p.Denotes type ty ∧ ∀ u, init = some u → u.InRange ∧ Ty.ofLiteral? u = some ty
  | .routine r => (∃ ty, p.Denotes r.ret ty) ∧ ∀ q ∈ r.params, ∃ ty, p.Denotes q.type ty

/-- Types that were found are those that the tokens denote. -/
structure Resolves (d : Declaration) (r : ResolvedTypes) : Prop where
  key : r.key = d.key
  type : ∃ ty, r.ty = some ty ∧ p.Denotes d.type ty
  params : ∃ tys, r.params = tys.map some ∧ List.Forall₂ p.Denotes d.paramTypes tys

theorem exists_denoted (ts : List Token) (h : ∀ t ∈ ts, ∃ ty, p.Denotes t ty) :
    ∃ tys, List.Forall₂ p.Denotes ts tys := by
  induction ts with
  | nil => exact ⟨[], .nil⟩
  | cons t ts ih =>
    obtain ⟨ty, hty⟩ := h t List.mem_cons_self
    obtain ⟨tys, htys⟩ := ih fun u hu => h u (List.mem_cons_of_mem t hu)
    exact ⟨ty :: tys, .cons hty htys⟩

end Program

theorem Program.Written.init {p : Program} (hw : p.Written) {name type : Token}
    {init : Option Token} (hd : .global name type init ∈ p) (u : Token) (hu : init = some u) :
    u.IsValue ∧ ∃ ty, Ty.ofLiteral? u = some ty := by
  subst hu
  exact ⟨hw.values _ hd u (List.mem_singleton_self u), hw.inits _ _ _ hd⟩

namespace Resolution

/-- What is known behind declarations. -/
def after (r : Resolution) (ds : List Accepted) : Resolution :=
  ds.foldl (fun r d => (r.step d).2.2) r

theorem steps_append (r : Resolution) (ds es : List Accepted) :
    r.steps (ds ++ es) = r.steps ds ++ (r.after ds).steps es := by
  induction ds generalizing r with
  | nil => rfl
  | cons d ds ih => simp [steps, after, ih]

variable {p : Program} {r : Resolution}

theorem checkInit_eq_nil_iff (name : Token) {ty : Ty} {init : Option Token}
    (hv : ∀ u, init = some u → u.IsValue ∧ ∃ ty, Ty.ofLiteral? u = some ty) :
    checkInit name (some ty) init = [] ↔
      ∀ u, init = some u → u.InRange ∧ Ty.ofLiteral? u = some ty := by
  cases init with
  | none => simp [checkInit]
  | some u =>
    obtain ⟨hu, ty', hty⟩ := hv u rfl
    simp only [checkInit, List.append_eq_nil_iff, literalFaults_eq_nil_iff hu, hty, mismatch,
      Option.some.injEq, forall_eq']
    simp [eq_comm]

/-- The parameters of a function take their types from its signature. -/
theorem steps_of_signature {owner : Token} {tys : Array (Option Ty)}
    (hs : r.signatures[owner.lexeme]? = some tys) (i : Nat) (l : List (Param × Nat)) :
    let ds := l.map fun x => (⟨i, .param owner x.2 x.1.name x.1.type⟩ : Accepted)
    r.steps ds = l.map (fun x =>
        (⟨Symbol.qualify owner.lexeme x.1.name.lexeme, tys[x.2]?.join, []⟩, [])) ∧
      r.after ds = r := by
  intro ds
  induction l with
  | nil => exact ⟨rfl, rfl⟩
  | cons x l ih =>
    obtain ⟨hsteps, hafter⟩ := ih
    refine ⟨?_, hafter⟩
    simp only [ds, List.map_cons, steps, step, hs, hsteps]
    rfl

/-- Parameters whose tokens have types have those types. -/
theorem steps_params {f : Routine} (i : Nat) {tys : List Ty}
    (hs : r.signatures[f.name.lexeme]? = some (tys.map some).toArray)
    (hd : List.Forall₂ p.Denotes (f.params.map (·.type)) tys) (l : List (Param × Nat))
    (hl : ∀ x ∈ l, f.params[x.2]? = some x.1) :
    let ds := l.map fun x => (⟨i, .param f.name x.2 x.1.name x.1.type⟩ : Accepted)
    List.Forall₂ (fun a x => x.2 = [] ∧ p.Resolves a.declaration x.1) ds (r.steps ds) ∧
      r.after ds = r := by
  intro ds
  obtain ⟨hsteps, hafter⟩ := steps_of_signature hs i l
  refine ⟨?_, hafter⟩
  rw [hsteps, List.forall₂_map_left_iff, List.forall₂_map_right_iff, List.forall₂_same]
  intro x hx
  obtain ⟨hlen, hget⟩ := List.getElem?_eq_some_iff.mp (hl x hx)
  have hlt : x.2 < tys.length := by
    rw [← hd.length_eq, List.length_map]
    exact hlen
  have hty : p.Denotes x.1.type tys[x.2] := by
    have := hd.get (by simpa using hlen) hlt
    simpa [hget] using this
  exact ⟨rfl, rfl, ⟨tys[x.2], by simp [hlt], hty⟩, ⟨[], rfl, .nil⟩⟩

/-- Found without a fault, and found right. -/
abbrev Clean (p : Program) : List Accepted → List (ResolvedTypes × List Fault) → Prop :=
  List.Forall₂ fun a x => x.2 = [] ∧ p.Resolves a.declaration x.1

/-- The declarations that come from one of a program. -/
abbrev block (i : Nat) (d : Decl) : List Accepted := d.declarations.map (⟨i, ·⟩)

theorem steps_block (h : r.aliases.Right p) (hw : p.Written) (i : Nat) {d : Decl} (hd : d ∈ p)
    (hf : p.HeaderFits d) :
    Clean p (block i d) (r.steps (block i d)) ∧ (r.after (block i d)).aliases.Right p := by
  cases d with
  | «alias» name target =>
    obtain ⟨ty, hty⟩ := hf
    obtain ⟨a, ha, hr⟩ := Aliases.resolveAlias_of_denotes h hd hty
    simp only [block, Decl.declarations, List.map_cons, List.map_nil, steps, after, List.foldl_cons,
      List.foldl_nil, step, ha]
    exact ⟨.cons ⟨rfl, rfl, ⟨ty, rfl, hty⟩, ⟨[], rfl, .nil⟩⟩ .nil, hr⟩
  | «global» name type init =>
    obtain ⟨ty, hty, hinit⟩ := hf
    obtain ⟨a, ha, hr⟩ := Aliases.resolve_of_denotes h i hty
    have hc := (checkInit_eq_nil_iff name (hw.init hd)).mpr hinit
    simp only [block, Decl.declarations, List.map_cons, List.map_nil, steps, after, List.foldl_cons,
      List.foldl_nil, step, ha, hc, List.append_nil]
    exact ⟨.cons ⟨rfl, rfl, ⟨ty, rfl, hty⟩, ⟨[], rfl, .nil⟩⟩ .nil, hr⟩
  | routine f =>
    obtain ⟨⟨ty, hty⟩, hps⟩ := hf
    obtain ⟨tys, htys⟩ := p.exists_denoted (f.params.map (·.type)) (by simpa using hps)
    obtain ⟨a, ha, hr⟩ := Aliases.resolve_of_denotes h i hty
    obtain ⟨b, hb, hr⟩ := Aliases.resolveAll_of_denotes hr i htys
    let r' : Resolution := ⟨b, r.signatures.insert f.name.lexeme (tys.map some).toArray⟩
    obtain ⟨hok, hafter⟩ := steps_params (r := r') (p := p) i (by simp [r']) htys f.params.zipIdx
      fun x hx => List.mem_zipIdx_iff_getElem?.mp hx
    simp only [block, Decl.declarations, List.map_cons, List.map_map, steps, after,
      List.foldl_cons, step, ha, hb, List.append_nil]
    refine ⟨.cons ⟨rfl, rfl, ⟨ty, rfl, hty⟩, ⟨tys, rfl, htys⟩⟩ hok, ?_⟩
    have hr' : r'.aliases.Right p := hr
    rw [← hafter] at hr'
    exact hr'

theorem faults_block (h : r.aliases.Right p) (hw : p.Written) (i : Nat) {d : Decl} (hd : d ∈ p)
    (hf : ¬ p.HeaderFits d) : ∃ x ∈ r.steps (block i d), x.2 ≠ [] := by
  cases d with
  | «alias» name target =>
    exact ⟨_, List.mem_cons_self, Aliases.faults_resolveAlias h hd hf⟩
  | «global» name type init =>
    simp only [block, Decl.declarations, List.map_cons, steps, step]
    refine ⟨_, List.mem_cons_self, ?_⟩
    by_cases ht : ∃ ty, p.Denotes type ty
    · obtain ⟨ty, hty⟩ := ht
      obtain ⟨a, ha, -⟩ := Aliases.resolve_of_denotes h i hty
      rw [ha]
      intro hc
      refine hf ⟨ty, hty, (checkInit_eq_nil_iff name (hw.init hd)).mp ?_⟩
      simpa using hc
    · exact List.append_ne_nil_of_left_ne_nil (Aliases.faults_resolve h i ht) _
  | routine f =>
    simp only [block, Decl.declarations, List.map_cons, steps, step]
    refine ⟨_, List.mem_cons_self, ?_⟩
    by_cases ht : ∃ ty, p.Denotes f.ret ty
    · obtain ⟨ty, hty⟩ := ht
      obtain ⟨a, ha, hr⟩ := Aliases.resolve_of_denotes h i hty
      rw [ha]
      refine Aliases.faults_resolveAll hr i fun hps => hf ⟨⟨ty, hty⟩, fun q hq => ?_⟩
      exact hps q.type (List.mem_map_of_mem hq)
    · exact List.append_ne_nil_of_left_ne_nil (Aliases.faults_resolve h i ht) _

theorem steps_accepted (h : r.aliases.Right p) (hw : p.Written) {ds : Located}
    (hd : ∀ x ∈ ds, x.2 ∈ p) (hf : ∀ x ∈ ds, p.HeaderFits x.2) :
    Clean p ds.accepted (r.steps ds.accepted) := by
  induction ds generalizing r with
  | nil => exact .nil
  | cons x ds ih =>
    have hx := List.mem_cons_self (a := x) (l := ds)
    obtain ⟨hok, hr⟩ := steps_block h hw x.1 (hd x hx) (hf x hx)
    have hs := ih hr (fun y hy => hd y (List.mem_cons_of_mem x hy))
      fun y hy => hf y (List.mem_cons_of_mem x hy)
    rw [Located.accepted, List.flatMap_cons, steps_append]
    exact List.rel_append hok hs

theorem faults_accepted (h : r.aliases.Right p) (hw : p.Written) {ds : Located}
    (hd : ∀ x ∈ ds, x.2 ∈ p) (hf : ¬ ∀ x ∈ ds, p.HeaderFits x.2) :
    ∃ x ∈ r.steps ds.accepted, x.2 ≠ [] := by
  induction ds generalizing r with
  | nil => exact absurd (List.forall_mem_nil _) hf
  | cons x ds ih =>
    have hx := List.mem_cons_self (a := x) (l := ds)
    rw [Located.accepted, List.flatMap_cons, steps_append]
    by_cases hfx : p.HeaderFits x.2
    · obtain ⟨-, hr⟩ := steps_block h hw x.1 (hd x hx) hfx
      obtain ⟨y, hy, hne⟩ := ih hr (fun y hy => hd y (List.mem_cons_of_mem x hy)) fun hs =>
        hf (List.forall_mem_cons.mpr ⟨hfx, hs⟩)
      exact ⟨y, List.mem_append_right _ hy, hne⟩
    · obtain ⟨y, hy, hne⟩ := faults_block h hw x.1 (hd x hx) hfx
      exact ⟨y, List.mem_append_left _ hy, hne⟩

end Resolution

namespace Aliases

/-- The targets of accepted aliases, put over earlier ones. -/
def targetsOnto (m : Std.TreeMap String AliasTarget) (as : List Accepted) :
    Std.TreeMap String AliasTarget :=
  as.foldl (fun m a =>
    match a.declaration with
    | .alias name target => m.insert name.lexeme ⟨target, a.origin⟩
    | _ => m) m

theorem getElem?_targetsOnto_of_ne {m : Std.TreeMap String AliasTarget} {as : List Accepted}
    {x : String} (h : ∀ a ∈ as, a.declaration.key ≠ x) : (targetsOnto m as)[x]? = m[x]? := by
  induction as generalizing m with
  | nil => rfl
  | cons a as ih =>
    obtain ⟨ha, has⟩ := List.forall_mem_cons.mp h
    refine (ih has).trans ?_
    obtain ⟨i, d⟩ := a
    cases d with
    | «alias» name target =>
      have hx : name.lexeme ≠ x := ha
      simp [Std.TreeMap.getElem?_insert, hx]
    | _ => rfl

theorem getElem?_targetsOnto {m : Std.TreeMap String AliasTarget} {as : List Accepted}
    (hn : (as.map (·.declaration.key)).Nodup) {i : Nat} {name target : Token}
    (ha : ⟨i, .alias name target⟩ ∈ as) :
    (targetsOnto m as)[name.lexeme]? = some ⟨target, i⟩ := by
  induction as generalizing m with
  | nil => cases ha
  | cons a as ih =>
    obtain ⟨hx, hs⟩ := List.nodup_cons.mp hn
    rcases List.mem_cons.mp ha with rfl | ha
    · have hne : ∀ b ∈ as, b.declaration.key ≠ name.lexeme := fun b hb h =>
        hx (List.mem_map.mpr ⟨b, hb, h⟩)
      exact (getElem?_targetsOnto_of_ne hne).trans Std.TreeMap.getElem?_insert_self
    · exact ih hs ha

theorem of_getElem?_targetsOnto {m : Std.TreeMap String AliasTarget} {as : List Accepted}
    {x : String} {u : AliasTarget} (h : (targetsOnto m as)[x]? = some u) :
    m[x]? = some u ∨ ∃ name, ⟨u.origin, .alias name u.token⟩ ∈ as ∧ name.lexeme = x := by
  induction as generalizing m with
  | nil => exact .inl h
  | cons a as ih =>
    rcases ih h with hm | ⟨name, hmem, hx⟩
    · obtain ⟨i, d⟩ := a
      cases d with
      | «alias» name target =>
        simp only [Std.TreeMap.getElem?_insert, Std.compare_eq_iff_eq] at hm
        split at hm
        · next hx =>
          cases hm
          exact .inr ⟨name, List.mem_cons_self, hx⟩
        · exact .inl hm
      | _ => exact .inl hm
    · exact .inr ⟨name, List.mem_cons_of_mem a hmem, hx⟩

end Aliases

theorem Decl.alias_mem_declarations {d : Decl} {name target : Token} :
    .alias name target ∈ d.declarations ↔ d = .alias name target := by
  cases d <;> simp [declarations, eq_comm]

namespace Merged

variable {xs : List (Nat × Finding)}

/-- The targets that resolution starts with are those of accepted aliases. -/
theorem alias_of_target {x : String} {u : AliasTarget}
    (hu : (Resolution.start (merge .empty xs)).aliases.targets[x]? = some u) :
    ∃ name, ⟨u.origin, .alias name u.token⟩ ∈ (merge .empty xs).accepted ∧ name.lexeme = x :=
  (Aliases.of_getElem?_targetsOnto hu).resolve_left (by simp)

theorem target_of_alias {i : Nat} {name target : Token}
    (ha : ⟨i, .alias name target⟩ ∈ (merge .empty xs).accepted) :
    (Resolution.start (merge .empty xs)).aliases.targets[name.lexeme]? = some ⟨target, i⟩ :=
  Aliases.getElem?_targetsOnto (nodup_accepted xs) ha

/-- Resolution starts with the aliases of a program that has the accepted ones. -/
theorem mirrors_start {p : Program} (hp : ∀ name target, .alias name target ∈ p ↔
      ∃ i, ⟨i, .alias name target⟩ ∈ (merge .empty xs).accepted) :
    (Resolution.start (merge .empty xs)).aliases.Mirrors p := by
  have hsymbol {x : String} (hx : x ∈ (Resolution.start (merge .empty xs)).aliases.targets) :
      ∃ s, (merge .empty xs).symbols.get? x = some s ∧ s.kind = .type := by
    obtain ⟨u, hu⟩ := Option.isSome_iff_exists.mp (Std.TreeMap.isSome_getElem?_iff_mem.mpr hx)
    obtain ⟨name, ha, rfl⟩ := alias_of_target hu
    exact ⟨_, get?_of_accepted ha, rfl⟩
  constructor
  · intro x s hs
    obtain ⟨a, -, rfl, rfl⟩ := accepted_of_get? hs
    rfl
  · intro x s hs
    constructor
    · intro hk
      obtain ⟨⟨i, d⟩, ha, rfl, rfl⟩ := accepted_of_get? hs
      cases d with
      | «alias» name target => exact Aliases.Mirrors.mem_targets (target_of_alias ha)
      | _ => cases hk
    · intro hx
      obtain ⟨s', hs', hk⟩ := hsymbol hx
      obtain rfl := Option.some.inj (hs.symm.trans hs')
      exact hk
  · intro x hx
    obtain ⟨s, hs, -⟩ := hsymbol hx
    exact ⟨s, hs⟩
  · intro x u hu
    obtain ⟨name, ha, hx⟩ := alias_of_target hu
    exact ⟨name, (hp _ _).mpr ⟨_, ha⟩, hx⟩
  · intro name target hd
    obtain ⟨i, ha⟩ := (hp _ _).mp hd
    exact ⟨_, target_of_alias ha, rfl⟩

end Merged

namespace Located

def program (ds : Located) : Program := ds.map (·.2)

/-- What merging gives when all names are fresh. -/
def merged (ds : Located) : Merged :=
  ⟨Merged.enrolled .empty ds.declarations, ds.accepted, []⟩

variable {ds : Located}

theorem map_accepted : ds.accepted.map (·.declaration) = ds.declarations := by
  simp [accepted, declarations, List.map_flatMap, Function.comp_def]

theorem mem_program {i : Nat} {d : Decl} (h : (i, d) ∈ ds) : d ∈ ds.program :=
  List.mem_map_of_mem h

theorem exists_of_mem_declarations {e : Declaration} (h : e ∈ ds.declarations) :
    ∃ d ∈ ds.program, e ∈ d.declarations := by
  obtain ⟨⟨i, d⟩, hx, he⟩ := List.mem_flatMap.mp h
  exact ⟨d, mem_program hx, he⟩

theorem mem_declarations_of_mem {d : Decl} {e : Declaration} (hd : d ∈ ds.program)
    (he : e ∈ d.declarations) : e ∈ ds.declarations := by
  obtain ⟨x, hx, rfl⟩ := List.mem_map.mp hd
  exact List.mem_flatMap.mpr ⟨x, hx, he⟩

theorem mem_declarations_of_accepted {a : Accepted} (h : a ∈ ds.accepted) :
    a.declaration ∈ ds.declarations := by
  rw [← map_accepted]
  exact List.mem_map_of_mem h

theorem alias_mem_program {i : Nat} {name target : Token}
    (h : ⟨i, .alias name target⟩ ∈ ds.accepted) : .alias name target ∈ ds.program := by
  obtain ⟨d, hd, he⟩ := exists_of_mem_declarations (mem_declarations_of_accepted h)
  exact Decl.alias_mem_declarations.mp he ▸ hd

theorem alias_mem_accepted {name target : Token} (h : .alias name target ∈ ds.program) :
    ∃ i, ⟨i, .alias name target⟩ ∈ ds.accepted := by
  obtain ⟨⟨i, d⟩, hx, rfl⟩ := List.mem_map.mp h
  refine ⟨i, List.mem_flatMap.mpr ⟨_, hx, ?_⟩⟩
  simp [Decl.declarations]

theorem nodup_accepted (hf : Merged.Fresh .empty ds.declarations) :
    (ds.accepted.map (·.declaration.key)).Nodup := by
  have h := ((Merged.fresh_iff _ _).mp hf).1
  rw [← map_accepted, List.map_map] at h
  exact h

theorem get?_merged (hf : Merged.Fresh .empty ds.declarations) {e : Declaration}
    (he : e ∈ ds.declarations) : ds.merged.symbols.get? e.key = some e.symbol :=
  Merged.get?_enrolled hf he

theorem of_get?_merged {x : String} {s : Symbol} (h : ds.merged.symbols.get? x = some s) :
    ∃ e ∈ ds.declarations, e.key = x ∧ e.symbol = s := by
  refine (Merged.of_get?_enrolled h).resolve_left ?_
  simp

/-- Resolution starts with the aliases of the program. -/
theorem right_start (hf : Merged.Fresh .empty ds.declarations) :
    (Resolution.start ds.merged).aliases.Right ds.program := by
  have hmerged : Merged.merge .empty ds.findings = ds.merged := Merged.merge_findings hf
  refine ⟨?_, fun x o ho => ?_⟩
  · rw [← hmerged]
    refine Merged.mirrors_start fun name target => ?_
    rw [hmerged]
    exact ⟨alias_mem_accepted, fun ⟨i, ha⟩ => alias_mem_program ha⟩
  · simp [Resolution.start, Aliases.ofAccepted] at ho

end Located

namespace SymbolTable

/-- The symbol of a declaration, with the types that its tokens denote. -/
structure Entry (t : SymbolTable) (p : Program) (d : Declaration) (s : Symbol) : Prop where
  get : t.get? d.key = some s
  kind : s.kind = d.kind
  site : s.site = d.site.site
  type : ∃ ty, s.ty = some ty ∧ p.Denotes d.type ty
  params : ∃ tys, s.params = tys.map some ∧ List.Forall₂ p.Denotes d.paramTypes tys

/-- A table holds the symbols of a program with their types, and nothing else; no token denotes two
types. -/
structure Describes (t : SymbolTable) (p : Program) : Prop where
  unique : ∀ {u ty ty'}, p.Denotes u ty → p.Denotes u ty' → ty = ty'
  entry : ∀ d ∈ p, ∀ e ∈ d.declarations, ∃ s, t.Entry p e s
  only : ∀ x s, t.get? x = some s → ∃ d ∈ p, ∃ e ∈ d.declarations, e.key = x

/-- Types are recorded one after the other. -/
def recorded (t : SymbolTable) (rs : List (ResolvedTypes × List Fault)) : SymbolTable :=
  rs.foldl (fun t r => t.setTypes r.1.key r.1.ty r.1.params) t

theorem get?_recorded_of_ne {t : SymbolTable} {rs : List (ResolvedTypes × List Fault)} {x : String}
    (h : ∀ r ∈ rs, r.1.key ≠ x) : (t.recorded rs).get? x = t.get? x := by
  induction rs generalizing t with
  | nil => rfl
  | cons r rs ih =>
    obtain ⟨hr, hrs⟩ := List.forall_mem_cons.mp h
    refine (ih hrs).trans ?_
    rw [get?_setTypes]
    simp [hr]

theorem isSome_get?_recorded (t : SymbolTable) (rs : List (ResolvedTypes × List Fault))
    (x : String) : ((t.recorded rs).get? x).isSome = (t.get? x).isSome := by
  induction rs generalizing t with
  | nil => rfl
  | cons r rs ih =>
    refine (ih _).trans ?_
    rw [get?_setTypes, Option.isSome_map]

theorem get?_recorded {t : SymbolTable} {rs : List (ResolvedTypes × List Fault)}
    (hn : (rs.map (·.1.key)).Nodup) {r : ResolvedTypes × List Fault} (hr : r ∈ rs) {s : Symbol}
    (hs : t.get? r.1.key = some s) :
    (t.recorded rs).get? r.1.key = some { s with ty := r.1.ty, params := r.1.params } := by
  induction rs generalizing t with
  | nil => cases hr
  | cons q rs ih =>
    obtain ⟨hq, hrs⟩ := List.nodup_cons.mp hn
    rcases List.mem_cons.mp hr with rfl | hr
    · have hne : ∀ q ∈ rs, q.1.key ≠ r.1.key := fun q hm h => hq (List.mem_map.mpr ⟨q, hm, h⟩)
      refine (get?_recorded_of_ne hne).trans ?_
      rw [get?_setTypes, hs]
      simp
    · have hne : q.1.key ≠ r.1.key := fun h => hq (List.mem_map.mpr ⟨r, hr, h.symm⟩)
      refine ih hrs hr ?_
      rw [get?_setTypes, hs]
      simp [hne]

end SymbolTable

namespace Located

variable {ds : Located}

/-- With fresh names and fitting headers, the table describes the program. -/
theorem describes_typedSymbols (hf : Merged.Fresh .empty ds.declarations)
    (hw : ds.program.Written) (hh : ∀ d ∈ ds.program, ds.program.HeaderFits d) :
    ds.merged.typedSymbols.Describes ds.program := by
  have hclean : Resolution.Clean ds.program ds.accepted ds.merged.resolved :=
    Resolution.steps_accepted (right_start hf) hw (fun x hx => mem_program hx)
      fun x hx => hh x.2 (mem_program hx)
  have hkeys : ds.merged.resolved.map (·.1.key) = ds.accepted.map (·.declaration.key) := by
    generalize ds.merged.resolved = rs at hclean
    generalize ds.accepted = as at hclean
    induction hclean with
    | nil => rfl
    | cons h _ ih => rw [List.map_cons, List.map_cons, ih, h.2.key]
  constructor
  · intro u ty ty' h h'
    have hm := (right_start hf).mirrors
    obtain ⟨n, hl⟩ := Aliases.leads_of_denotes hm h
    obtain ⟨m, hl'⟩ := Aliases.leads_of_denotes hm h'
    exact (hl.unique hl').2
  · intro d hd e he
    have hmem : e ∈ ds.accepted.map (·.declaration) := by
      rw [map_accepted]
      exact mem_declarations_of_mem hd he
    obtain ⟨a, ha, rfl⟩ := List.mem_map.mp hmem
    obtain ⟨r, hr, -, hres⟩ := exists_of_mem_left hclean ha
    have hs := get?_merged hf (mem_declarations_of_accepted ha)
    have hget := SymbolTable.get?_recorded (hkeys ▸ nodup_accepted hf) hr (hres.key ▸ hs)
    rw [hres.key] at hget
    exact ⟨_, hget, rfl, rfl, hres.type, hres.params⟩
  · intro x s hs
    have hsome : (ds.merged.symbols.get? x).isSome = true := by
      rw [← SymbolTable.isSome_get?_recorded _ ds.merged.resolved]
      exact Option.isSome_iff_exists.mpr ⟨s, hs⟩
    obtain ⟨s', hs'⟩ := Option.isSome_iff_exists.mp hsome
    obtain ⟨e, he, hx, -⟩ := of_get?_merged hs'
    obtain ⟨d, hd, he⟩ := exists_of_mem_declarations he
    exact ⟨d, hd, e, he, hx⟩

end Located

end ThreeAddress
