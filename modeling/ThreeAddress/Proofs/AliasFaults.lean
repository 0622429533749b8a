import Mathlib.Data.List.Pairwise
import ThreeAddress.Proofs.AliasGraph
import ThreeAddress.Proofs.Redeclaration

namespace ThreeAddress

namespace Decl

/-- The tokens for types that a declaration shows to others. -/
def headTypes (d : Decl) : List Token := d.head.type :: d.head.paramTypes

end Decl

namespace Located

section
variable (ws : Located)

/-- The target of an alias is a name. -/
def Next (x y : String) : Prop :=
  ∃ i name target, (i, .alias name target) ∈ ws ∧ name.lexeme = x ∧
    Ty.ofKind? target.kind = none ∧ target.lexeme = y

/-- A way from the name comes back to it. -/
def OnCycle (x : String) : Prop := Relation.TransGen ws.Next x x

/-- The way from a token ends at a name that nothing has, at a name of something else than a type,
or on a cycle. -/
def GoesAstray (t : Token) : Prop :=
  Ty.ofKind? t.kind = none ∧ ∃ y, Relation.ReflTransGen ws.Next t.lexeme y ∧
    (ws.first? y = none ∨ (∃ x, ws.first? y = some x ∧ x.2.head.kind ≠ .type) ∨ ws.OnCycle y)

/-- One member of every cycle. -/
structure Represents (reps : Located) : Prop where
  nodup : reps.Nodup
  member : ∀ x ∈ reps, x ∈ ws ∧ ws.OnCycle x.2.name.lexeme
  unique : ∀ y, ws.OnCycle y → ∃! x, x ∈ reps ∧ Relation.ReflTransGen ws.Next y x.2.name.lexeme

/-- What is wrong with a token for a type by itself. -/
def typeFault? (i : Nat) (t : Token) : Option Fault :=
  match Ty.ofKind? t.kind, ws.first? t.lexeme with
  | some _, _ => none
  | none, none => some ⟨i, TypeName.unknownType t⟩
  | none, some x =>
    if x.2.head.kind = .type then none
    else some ⟨i, (TypeName.notType t x.2.head.symbol).withNote
      s!"`{t.lexeme}` is declared here" x.2.name.site⟩

/-- What is wrong with the types that a declaration shows. -/
def typeFaults (x : Nat × Decl) : List Fault := x.2.headTypes.filterMap (ws.typeFault? x.1)

end

/-- The complaint about a cycle, at a member of it. -/
def cycleFault (x : Nat × Decl) : Fault :=
  ⟨x.1, .error .semantic s!"cyclic type alias `{x.2.name.lexeme}`" (.site x.2.name.site)⟩

/-- What is wrong with the first value of a variable, given the type of the variable. -/
def initFaults (types : Token → Option Ty) (x : Nat × Decl) : List Fault :=
  match x.2 with
  | .global name type init => (Resolution.checkInit name (types type) init).map (⟨x.1, ·⟩)
  | _ => []

/-- The aliases that resolution starts with. -/
abbrev aliases (ds : Located) : Aliases :=
  (Resolution.start (Merged.merge .empty ds.findings)).aliases

/-- The type of a token. -/
def typeOf (ds : Located) (t : Token) : Option Ty := (ds.aliases.resolve 0 t).1

theorem mem_winners {ds : Located} {d : Nat × Decl} :
    d ∈ winners [] ds ↔ ds.first? d.2.name.lexeme = some d := by
  rw [mem_winners_iff]
  exact and_iff_right rfl

theorem first?_winners (ds : Located) (x : String) : (winners [] ds).first? x = ds.first? x := by
  ext d
  constructor
  · intro h
    obtain ⟨hd, rfl⟩ := name_of_first? h
    exact mem_winners.mp hd
  · intro h
    obtain ⟨-, rfl⟩ := name_of_first? h
    have hsome : ((winners [] ds).first? d.2.name.lexeme).isSome = true :=
      List.find?_isSome.mpr ⟨d, mem_winners.mpr h, decide_eq_true rfl⟩
    obtain ⟨e, he⟩ := Option.isSome_iff_exists.mp hsome
    obtain ⟨hmem, hname⟩ := name_of_first? he
    have hsame := mem_winners.mp hmem
    rw [hname, h] at hsame
    exact Option.some.inj hsame ▸ he

section
variable {ds : Located} (hplain : ds.Plain)
include hplain

theorem heads_merged : (Merged.merge .empty ds.findings).symbols.Heads ds ∧
    (Merged.merge .empty ds.findings).accepted.filter (!·.declaration.isParam) =
      (winners [] ds).map fun x => ⟨x.1, x.2.head⟩ := by
  have hempty : SymbolTable.empty.Heads [] := fun x _ => SymbolTable.get?_empty x
  exact Merged.merge_heads hempty hplain

theorem head_mem_accepted {x : Nat × Decl} (hx : x ∈ winners [] ds) :
    ⟨x.1, x.2.head⟩ ∈ (Merged.merge .empty ds.findings).accepted := by
  have hmem : (⟨x.1, x.2.head⟩ : Accepted) ∈ (winners [] ds).map fun x => ⟨x.1, x.2.head⟩ :=
    List.mem_map_of_mem hx
  rw [← (heads_merged hplain).2] at hmem
  exact List.mem_of_mem_filter hmem

theorem alias_accepted_iff {i : Nat} {name target : Token} :
    ⟨i, .alias name target⟩ ∈ (Merged.merge .empty ds.findings).accepted ↔
      (i, .alias name target) ∈ winners [] ds := by
  constructor
  · intro h
    have hmem : (⟨i, .alias name target⟩ : Accepted) ∈
        (Merged.merge .empty ds.findings).accepted.filter (!·.declaration.isParam) :=
      List.mem_filter.mpr ⟨h, rfl⟩
    rw [(heads_merged hplain).2] at hmem
    obtain ⟨⟨j, d⟩, hd, hsame⟩ := List.mem_map.mp hmem
    cases d <;> cases hsame
    exact hd
  · exact head_mem_accepted hplain

theorem target_iff {x : String} {u : AliasTarget} : ds.aliases.targets[x]? = some u ↔
    ∃ name, (u.origin, .alias name u.token) ∈ winners [] ds ∧ name.lexeme = x := by
  constructor
  · intro hu
    obtain ⟨name, ha, hx⟩ := Merged.alias_of_target hu
    exact ⟨name, (alias_accepted_iff hplain).mp ha, hx⟩
  · rintro ⟨name, hmem, rfl⟩
    exact Merged.target_of_alias ((alias_accepted_iff hplain).mpr hmem)

theorem mirrors_aliases : ds.aliases.Mirrors (winners [] ds).program := by
  refine Merged.mirrors_start fun name target => ?_
  constructor
  · intro h
    obtain ⟨⟨i, d⟩, hd, rfl⟩ := List.mem_map.mp h
    exact ⟨i, (alias_accepted_iff hplain).mpr hd⟩
  · rintro ⟨i, ha⟩
    exact mem_program ((alias_accepted_iff hplain).mp ha)

theorem next_eq : Aliases.Next ds.aliases.targets = (winners [] ds).Next := by
  ext x y
  constructor
  · rintro ⟨u, hu, hk, hy⟩
    obtain ⟨name, hmem, hx⟩ := (target_iff hplain).mp hu
    exact ⟨_, name, _, hmem, hx, hk, hy⟩
  · rintro ⟨i, name, target, hmem, hx, hk, hy⟩
    exact ⟨⟨target, i⟩, (target_iff hplain).mpr ⟨name, hmem, hx⟩, hk, hy⟩

/-- A name has a target exactly when the first declaration of it is an alias. -/
theorem mem_targets_iff (x : String) : x ∈ ds.aliases.targets ↔
    ∃ d, (winners [] ds).first? x = some d ∧ d.2.head.kind = .type := by
  rw [first?_winners]
  constructor
  · intro hx
    obtain ⟨u, hu⟩ := Option.isSome_iff_exists.mp (Std.TreeMap.isSome_getElem?_iff_mem.mpr hx)
    obtain ⟨name, ha, rfl⟩ := (target_iff hplain).mp hu
    exact ⟨_, mem_winners.mp ha, rfl⟩
  · rintro ⟨⟨i, d⟩, hd, hk⟩
    obtain ⟨-, rfl⟩ := name_of_first? hd
    cases d with
    | «alias» name target =>
      exact Aliases.Mirrors.mem_targets (u := ⟨target, i⟩)
        ((target_iff hplain).mpr ⟨name, mem_winners.mpr hd, rfl⟩)
    | _ => cases hk

theorem goesAstray_iff (t : Token) : (winners [] ds).GoesAstray t ↔
    ¬ ∃ ty, (winners [] ds).program.Denotes t ty := by
  rw [Aliases.not_denotes_iff (mirrors_aliases hplain) rfl, GoesAstray]
  refine and_congr_right fun _ => exists_congr fun y => ?_
  rw [Aliases.Reaches, Aliases.OnCycle, next_eq hplain, mem_targets_iff hplain, ← or_assoc]
  refine and_congr_right fun _ => or_congr_left ?_
  cases (winners [] ds).first? y with
  | none => simp
  | some x => simp

theorem lost_eq (i : Nat) {t : Token}
    (ht : Ty.ofKind? t.kind = none → ':' ∉ t.lexeme.toList) :
    ds.aliases.lost i t = (winners [] ds).typeFault? i t := by
  rw [Aliases.lost, typeFault?, TypeName.ofToken]
  cases hk : Ty.ofKind? t.kind with
  | some ty => rfl
  | none =>
    have hget : (ds.aliases).symbols.get? t.lexeme =
        ((winners [] ds).first? t.lexeme).map (·.2.head.symbol) := by
      rw [first?_winners]
      exact (heads_merged hplain).1 t.lexeme (ht hk)
    simp only [hget]
    cases (winners [] ds).first? t.lexeme with
    | none => rfl
    | some x =>
      have hkind : x.2.head.symbol.kind = x.2.head.kind := rfl
      have hsite : x.2.head.symbol.site = x.2.name.site := congrArg Token.site x.2.site_head
      by_cases htype : x.2.head.kind = .type
      · simp [hkind, htype]
      · simp [hkind, htype, hsite]

theorem cycleAt_eq {x : String} (hx : x ∈ ds.aliases.targets) :
    ds.aliases.cycleAt x = ((winners [] ds).first? x).toList.map cycleFault := by
  obtain ⟨u, hu⟩ := Option.isSome_iff_exists.mp (Std.TreeMap.isSome_getElem?_iff_mem.mpr hx)
  obtain ⟨name, ha, rfl⟩ := (target_iff hplain).mp hu
  have hget := Merged.get?_of_accepted ((alias_accepted_iff hplain).mpr ha)
  have hsymbol : ds.aliases.symbols.get? name.lexeme =
      some (Declaration.alias name u.token).symbol := hget
  have hfirst : (winners [] ds).first? name.lexeme = some (u.origin, .alias name u.token) := by
    rw [first?_winners]
    exact mem_winners.mp ha
  rw [Aliases.cycleAt, hsymbol, hu, hfirst]
  rfl

/-- What is wrong with a declaration by itself, with the target if it is an alias. -/
theorem faults_of_winner {x : Nat × Decl} (hx : x ∈ winners [] ds) (types : Token → Option Ty)
    (ht : ∀ t ∈ x.2.headTypes, Ty.ofKind? t.kind = none → ':' ∉ t.lexeme.toList) :
    (if x.2.head.kind = .type then ds.aliases.astray x.2.name.lexeme else []) ++
        ds.aliases.ownFaults types ⟨x.1, x.2.head⟩ =
      (winners [] ds).typeFaults x ++ initFaults types x := by
  have hlost : ds.aliases.allLost x.1 x.2.headTypes = (winners [] ds).typeFaults x := by
    rw [Aliases.allLost, typeFaults, List.filterMap_eq_flatMap_toList]
    exact List.flatMap_congr fun t hmem => congrArg _ (lost_eq hplain x.1 (ht t hmem))
  rw [← hlost]
  obtain ⟨i, d⟩ := x
  cases d with
  | «alias» name target =>
    have htarget : ds.aliases.targets[name.lexeme]? = some ⟨target, i⟩ :=
      (target_iff hplain).mpr ⟨name, hx, rfl⟩
    have hastray : ds.aliases.astray name.lexeme = (ds.aliases.lost i target).toList := by
      rw [Aliases.astray, htarget]
    simp [Decl.headTypes, Decl.head, Decl.name, Declaration.kind, Declaration.type,
      Declaration.paramTypes, Aliases.ownFaults, Aliases.allLost, initFaults, hastray]
  | «global» name type init =>
    simp [Decl.headTypes, Decl.head, Declaration.kind, Declaration.type, Declaration.paramTypes,
      Aliases.ownFaults, Aliases.allLost, initFaults]
  | routine r =>
    simp [Decl.headTypes, Decl.head, Declaration.kind, Declaration.type, Declaration.paramTypes,
      Aliases.ownFaults, initFaults]

theorem typeOf_eq_some_iff (t : Token) (ty : Ty) :
    ds.typeOf t = some ty ↔ (winners [] ds).program.Denotes t ty := by
  obtain ⟨-, -, -, -, hty, -⟩ :=
    (Aliases.progress_start rfl).resolve (mirrors_aliases hplain) 0 t
  exact hty ty

theorem nodup_winners : ((winners [] ds).map (·.2.name.lexeme)).Nodup := by
  have hkeys : (((Merged.merge .empty ds.findings).accepted.filter
      (!·.declaration.isParam)).map (·.declaration.key)).Nodup :=
    (Merged.nodup_accepted ds.findings).sublist (List.filter_sublist.map _)
  rw [(heads_merged hplain).2, List.map_map] at hkeys
  have hnames : (winners [] ds).map (·.2.name.lexeme) =
      (winners [] ds).map ((·.declaration.key) ∘ fun x => (⟨x.1, x.2.head⟩ : Accepted)) :=
    List.map_congr_left fun x _ => x.2.key_head.symm
  rw [hnames]
  exact hkeys

/-- When all declarations are resolved, all aliases are done. -/
theorem resolved_progress :
    ∃ path cycles a, ds.aliases.Progress a path cycles ∧
      ds.aliases.Accounts path cycles
        ((Merged.merge .empty ds.findings).accepted.flatMap (ds.aliases.ownFaults ds.typeOf))
        ((Merged.merge .empty ds.findings).resolved.flatMap (·.2)) ∧
      List.Forall₂ (fun d x => Resolution.Finds ds.typeOf d x.1)
        (Merged.merge .empty ds.findings).accepted (Merged.merge .empty ds.findings).resolved ∧
      ∀ x ∈ ds.aliases.targets, x ∈ path := by
  have halias : ∀ d ∈ (Merged.merge .empty ds.findings).accepted, ∀ name target,
      d.declaration = .alias name target → .alias name target ∈ (winners [] ds).program := by
    rintro ⟨i, d⟩ hd name target rfl
    exact mem_program ((alias_accepted_iff hplain).mp hd)
  obtain ⟨path, cycles, a, hprogress, hacc, hfinds, hdone⟩ :=
    Resolution.steps_progress (mirrors_aliases hplain) (typeOf_eq_some_iff hplain)
      (Aliases.progress_start rfl) halias
  rw [List.append_nil] at hprogress hdone
  rw [List.append_nil] at hprogress
  refine ⟨path, cycles, a, hprogress, hacc, hfinds, fun x hx => ?_⟩
  obtain ⟨u, hu⟩ := Option.isSome_iff_exists.mp (Std.TreeMap.isSome_getElem?_iff_mem.mpr hx)
  obtain ⟨name, ha, rfl⟩ := (target_iff hplain).mp hu
  exact hdone _ (head_mem_accepted hplain ha) rfl

/-- The aliases that are done, by their declarations. -/
theorem path_perm {path : List String} (hnodup : path.Nodup)
    (hmem : ∀ x, x ∈ path ↔ x ∈ ds.aliases.targets) :
    path.Perm (((winners [] ds).filter (·.2.head.kind = .type)).map (·.2.name.lexeme)) := by
  have hnames : (((winners [] ds).filter (·.2.head.kind = .type)).map (·.2.name.lexeme)).Nodup :=
    (nodup_winners hplain).sublist (List.filter_sublist.map _)
  refine (List.perm_ext_iff_of_nodup hnodup hnames).mpr fun x => ?_
  rw [hmem, mem_targets_iff hplain, first?_winners, List.mem_map]
  constructor
  · rintro ⟨d, hd, hk⟩
    obtain ⟨-, rfl⟩ := name_of_first? hd
    exact ⟨d, List.mem_filter.mpr ⟨mem_winners.mpr hd, decide_eq_true hk⟩, rfl⟩
  · rintro ⟨d, hd, rfl⟩
    obtain ⟨hd, hk⟩ := List.mem_filter.mp hd
    exact ⟨d, mem_winners.mp hd, of_decide_eq_true hk⟩

/-- Complaints about targets that were passed and about all else are those about the declarations
that won their names. -/
theorem own_perm {path : List String} (hnodup : path.Nodup)
    (hmem : ∀ x, x ∈ path ↔ x ∈ ds.aliases.targets) (types : Token → Option Ty)
    (ht : ∀ x ∈ winners [] ds, ∀ t ∈ x.2.headTypes,
      Ty.ofKind? t.kind = none → ':' ∉ t.lexeme.toList) :
    (path.flatMap ds.aliases.astray ++
      (Merged.merge .empty ds.findings).accepted.flatMap (ds.aliases.ownFaults types)).Perm
      ((winners [] ds).flatMap (winners [] ds).typeFaults ++
        (winners [] ds).flatMap (initFaults types)) := by
  let target (x : Nat × Decl) : List Fault :=
    if x.2.head.kind = .type then ds.aliases.astray x.2.name.lexeme else []
  have hpath : (path.flatMap ds.aliases.astray).Perm ((winners [] ds).flatMap target) := by
    refine ((path_perm hplain hnodup hmem).flatMap_right _).trans (List.Perm.of_eq ?_)
    rw [List.flatMap_map, ← flatMap_filter (f := target) (q := (·.2.head.kind = .type))]
    · refine List.flatMap_congr fun x hx => ?_
      exact (if_pos (of_decide_eq_true (List.mem_filter.mp hx).2)).symm
    · intro x _ hk
      exact if_neg (of_decide_eq_false hk)
  have haccepted : (Merged.merge .empty ds.findings).accepted.flatMap (ds.aliases.ownFaults types) =
      (winners [] ds).flatMap fun x => ds.aliases.ownFaults types ⟨x.1, x.2.head⟩ := by
    rw [← flatMap_filter (q := (!·.declaration.isParam)), (heads_merged hplain).2, List.flatMap_map]
    rintro ⟨i, d⟩ - hparam
    cases d with
    | param owner slot name type => rfl
    | _ => cases hparam
  have hwinner : ∀ x ∈ winners [] ds, target x ++ ds.aliases.ownFaults types ⟨x.1, x.2.head⟩ =
      (winners [] ds).typeFaults x ++ initFaults types x := fun x hx =>
    faults_of_winner hplain hx types (ht x hx)
  rw [haccepted]
  refine (hpath.append_right _).trans ((List.flatMap_append_perm _ _ _).trans ?_)
  rw [List.flatMap_congr hwinner]
  exact (List.flatMap_append_perm _ _ _).symm

/-- The cycles that were found, by a member of each. -/
theorem exists_represents {a : Aliases} {path cycles : List String}
    (h : ds.aliases.Progress a path cycles) (hall : ∀ x ∈ ds.aliases.targets, x ∈ path) :
    ∃ reps, (winners [] ds).Represents reps ∧
      cycles.flatMap ds.aliases.cycleAt = reps.map cycleFault := by
  have hfirst : ∀ c ∈ cycles, ∃ x, (winners [] ds).first? c = some x := by
    intro c hc
    obtain ⟨x, hx, -⟩ := (mem_targets_iff hplain c).mp (h.cyclic c hc).2.mem_targets
    exact ⟨x, hx⟩
  have hmem {x : Nat × Decl} (hx : x ∈ cycles.filterMap (winners [] ds).first?) :
      x ∈ winners [] ds ∧ x.2.name.lexeme ∈ cycles := by
    obtain ⟨c, hc, hx⟩ := List.mem_filterMap.mp hx
    obtain ⟨hw, rfl⟩ := name_of_first? hx
    exact ⟨hw, hc⟩
  refine ⟨cycles.filterMap (winners [] ds).first?, ⟨?_, fun x hx => ?_, fun y hy => ?_⟩, ?_⟩
  · refine List.pairwise_filterMap.mpr (h.apart.imp fun {c c'} hne x hx x' hx' hsame => ?_)
    obtain ⟨-, rfl⟩ := name_of_first? hx
    obtain ⟨-, rfl⟩ := name_of_first? hx'
    exact hne.1 (hsame ▸ .refl)
  · obtain ⟨hw, hc⟩ := hmem hx
    have hcycle := (h.cyclic _ hc).2
    rw [Aliases.OnCycle, next_eq hplain] at hcycle
    exact ⟨hw, hcycle⟩
  · have hcycle : Aliases.OnCycle ds.aliases.targets y := by
      rw [Aliases.OnCycle, next_eq hplain]
      exact hy
    obtain ⟨c, hc, hreach⟩ := h.covered y (hall y hcycle.mem_targets) hcycle
    obtain ⟨x, hx⟩ := hfirst c hc
    obtain ⟨-, rfl⟩ := name_of_first? hx
    rw [← next_eq hplain]
    refine ⟨x, ⟨List.mem_filterMap.mpr ⟨_, hc, hx⟩, hreach⟩, ?_⟩
    rintro x' ⟨hx', hreach'⟩
    obtain ⟨hw', hc'⟩ := hmem hx'
    have hname : x'.2.name.lexeme = x.2.name.lexeme := by
      by_contra hne
      have hsymm : Std.Symm fun c c' => ¬ Aliases.Reaches ds.aliases.targets c c' ∧
          ¬ Aliases.Reaches ds.aliases.targets c' c := ⟨fun _ _ hcc => ⟨hcc.2, hcc.1⟩⟩
      have hapart := h.apart.forall hc' hc hne
      exact hapart.1 ((reaches_back Aliases.rightUnique_next hcycle hreach').trans hreach)
    have hsame := mem_winners.mp hw'
    rw [hname, ← first?_winners, hx] at hsame
    exact (Option.some.inj hsame).symm
  · rw [List.filterMap_eq_flatMap_toList, List.map_flatMap]
    exact List.flatMap_congr fun c hc => cycleAt_eq hplain (h.cyclic c hc).2.mem_targets

end

theorem isCyclic_cycleFault (x : Nat × Decl) : (cycleFault x).diagnostic.isCyclic = true := by
  simp [cycleFault, Diagnostic.isCyclic, Diagnostic.opens, Diagnostic.error, toString,
    List.isPrefixOf]

theorem not_isCyclic_typeFaults (ws : Located) (x : Nat × Decl) :
    ∀ f ∈ ws.typeFaults x, f.diagnostic.isCyclic = false := by
  intro f hf
  obtain ⟨t, -, hf⟩ := List.mem_filterMap.mp hf
  unfold typeFault? at hf
  split at hf
  · cases hf
  · cases hf
    exact (TypeName.complains_unknownType (P := fun _ => True) trivial).notCyclic
  · split at hf
    · cases hf
    · cases hf
      exact ((TypeName.complains_notType (P := fun _ => True) trivial _).withNote _ _).notCyclic

theorem not_isCyclic_initFaults (types : Token → Option Ty) (x : Nat × Decl) :
    ∀ f ∈ initFaults types x, f.diagnostic.isCyclic = false := by
  obtain ⟨i, d⟩ := x
  cases d with
  | «global» name type init =>
    intro f hf
    obtain ⟨d, hd, rfl⟩ := List.mem_map.mp hf
    exact (Resolution.allComplain_checkInit (Q := fun _ => True) name _ (fun _ _ => trivial) d
      hd).notCyclic
  | _ => exact List.forall_mem_nil _

end Located

theorem Phrase.Item.mem_headTypes {i : Phrase.Item} {t : Token} (h : t ∈ i.decl.headTypes) :
    t.kind.isTypeName = true ∧ t ∈ i.tokens := by
  cases i with
  | type keyword name eq target semi =>
    obtain rfl := List.mem_singleton.mp h
    exact ⟨target.2, by simp [tokens, decl, Decl.head, Declaration.type]⟩
  | «global» keyword name colon ty init semi =>
    obtain rfl := List.mem_singleton.mp h
    exact ⟨ty.2, by simp [tokens, decl, Decl.head, Declaration.type]⟩
  | func header body close =>
    rcases List.mem_cons.mp h with rfl | h
    · exact ⟨header.ret.2, by simp [tokens, Header.tokens, decl, Decl.head, Declaration.type]⟩
    · simp only [decl, Decl.head, Declaration.paramTypes, List.map_map, List.mem_map] at h
      obtain ⟨q, hq, rfl⟩ := h
      have hmem := Params.subset_tokens hq (a := q.type.1) (by simp [Param.tokens])
      exact ⟨q.type.2, by simp [tokens, Header.tokens, Param.param, hmem]⟩

/-- A name in the place of a type has no colon. -/
theorem Tree.FromSource.plain_types {t : Tree} (h : t.FromSource) {p : Program}
    (hp : t.program = .ok p) :
    ∀ d ∈ p, ∀ u ∈ d.headTypes, Ty.ofKind? u.kind = none → ':' ∉ u.lexeme.toList := by
  obtain ⟨budget, file, s, ts, hl, hparse⟩ := h
  obtain ⟨f, rest, rfl, rfl⟩ := Phrase.parse_ok hparse
  obtain rfl : p = f.program :=
    Except.ok.inj (hp.symm.trans (Phrase.File.program_of_items (t := ⟨_, f.nodes⟩) rfl))
  intro d hd u hu hk
  obtain ⟨i, hi, rfl⟩ := List.mem_map.mp hd
  obtain ⟨hname, hmem⟩ := Phrase.Item.mem_headTypes hu
  have hlexical : u.Lexical := by
    refine lexical_tokenize hl u (List.mem_append_left _ ?_)
    exact List.mem_append_left _ (List.mem_flatMap.mpr ⟨i, hi, hmem⟩)
  refine hlexical.noColon ?_
  revert hname hk
  cases u.kind <;> simp [TokenKind.isTypeName, Ty.ofKind?]

/-- An accepted declaration has its symbol, with the types that were found for it. -/
theorem Merged.get?_typedSymbols {xs : List (Nat × Finding)} {Q : Accepted → ResolvedTypes → Prop}
    (h : List.Forall₂ (fun d x => x.1.key = d.declaration.key ∧ Q d x.1)
      (merge .empty xs).accepted (merge .empty xs).resolved)
    {a : Accepted} (ha : a ∈ (merge .empty xs).accepted) :
    ∃ found, Q a found ∧ (merge .empty xs).typedSymbols.get? a.declaration.key =
      some { a.declaration.symbol with ty := found.ty, params := found.params } := by
  obtain ⟨r, hr, hkey, hq⟩ := exists_of_mem_left h ha
  have hkeys : (merge .empty xs).accepted.map (·.declaration.key) =
      (merge .empty xs).resolved.map (·.1.key) := by
    refine List.forall₂_eq_eq_eq ▸ ?_
    rw [List.forall₂_map_left_iff, List.forall₂_map_right_iff]
    exact h.imp fun d x h => h.1.symm
  have hrecorded := SymbolTable.get?_recorded (hkeys ▸ nodup_accepted _) hr
    (hkey ▸ get?_of_accepted ha)
  rw [hkey] at hrecorded
  exact ⟨r.1, hq, hrecorded⟩

namespace ReadFile

variable {b : List ReadFile}

theorem plain_types (hsource : ∀ f ∈ b, f.tree.FromSource) :
    ∀ x ∈ Located.winners [] (located b), ∀ t ∈ x.2.headTypes,
      Ty.ofKind? t.kind = none → ':' ∉ t.lexeme.toList := by
  intro x hx
  obtain ⟨hmem, -⟩ := Located.name_of_first? (Located.mem_winners.mp hx)
  obtain ⟨f, hf, hx⟩ := List.mem_flatMap.mp hmem
  obtain ⟨d, hd, rfl⟩ := List.mem_map.mp hx
  exact (hsource f hf).plain_types f.read d hd

/-- A declaration that won its name has its symbol, with the type of its token. -/
theorem get?_winner {x : Nat × Decl} (hx : x ∈ Located.winners [] (located b)) :
    ∃ s, (Analysis.ofFiles (b.map numbered)).symbols.get? x.2.name.lexeme = some s ∧
      s.kind = x.2.head.kind ∧ s.site = x.2.name.site ∧
      s.ty = (located b).typeOf x.2.head.type := by
  have hplain := plain_located b
  obtain ⟨-, -, -, -, -, hfinds, -⟩ := Located.resolved_progress hplain
  obtain ⟨r, hfound, hget⟩ := Merged.get?_typedSymbols (hfinds.imp fun d x h => ⟨h.key, h⟩)
    (Located.head_mem_accepted hplain hx)
  rw [x.2.key_head] at hget
  have hlocals : ∀ s ∈ localSymbols (Merged.ofFiles (b.map numbered)).typedSymbols b,
      s.name ≠ x.2.name.lexeme := by
    intro s hs hsame
    obtain ⟨hmem, -⟩ := Located.name_of_first? (Located.mem_winners.mp hx)
    exact hplain x hmem (hsame ▸ colon_mem_localSymbols _ b s hs)
  rw [symbols_eq, SymbolTable.get?_foldl_declareNew_of_ne hlocals, merged_eq]
  exact ⟨_, hget, rfl, congrArg Token.site x.2.site_head, hfound.type x.2.isParam_head⟩

/-- Complaints about cycles come from resolving types only. -/
theorem cyclic_faults (b : List ReadFile) :
    (Analysis.ofFiles (b.map numbered)).faults.filter (·.diagnostic.isCyclic) =
      ((Merged.ofFiles (b.map numbered)).resolved.flatMap (·.2)).filter
        (·.diagnostic.isCyclic) := by
  have hall : ∀ x ∈ b.map numbered, ∀ n ∈ x.2.items, n.All fun _ => True :=
    fun x _ n _ => n.all_of_forall fun _ => trivial
  have hmerged : (Merged.ofFiles (b.map numbered)).faults.filter (·.diagnostic.isCyclic) = [] := by
    refine List.filter_eq_nil_iff.mpr fun f hf => ?_
    rw [((Merged.acyclic_ofFiles (P := fun _ _ => True) hall).1 f hf).2]
    exact Bool.false_ne_true
  have hbodies : (bodyFaults (Merged.ofFiles (b.map numbered)).typedSymbols b).filter
      (·.diagnostic.isCyclic) = [] := by
    refine List.filter_eq_nil_iff.mpr fun f hf => ?_
    obtain ⟨x, hx, hf⟩ := List.mem_flatMap.mp hf
    obtain ⟨file, hfile, rfl⟩ := List.mem_map.mp hx
    obtain ⟨d, hd, rfl⟩ := List.mem_map.mp hf
    have hitems := hall _ (List.mem_map_of_mem hfile)
    rw [(Analysis.acyclic_bodies _ hitems d hd).2]
    exact Bool.false_ne_true
  rw [faults_eq, List.filter_append, List.filter_append, hmerged, hbodies, List.append_nil,
    List.nil_append]

/-- What resolving the types of a batch finds, and the complaints about cycles among it. -/
theorem resolved_faults (hsource : ∀ f ∈ b, f.tree.FromSource) :
    let ws := Located.winners [] (located b)
    ∃ reps, ws.Represents reps ∧
      ((Merged.ofFiles (b.map numbered)).resolved.flatMap (·.2)).Perm
        (reps.map Located.cycleFault ++ ws.flatMap ws.typeFaults ++
          ws.flatMap (Located.initFaults (located b).typeOf)) ∧
      ((Analysis.ofFiles (b.map numbered)).faults.filter (·.diagnostic.isCyclic)).Perm
        (reps.map Located.cycleFault) := by
  intro ws
  have hplain := plain_located b
  obtain ⟨path, cycles, a, hprogress, hacc, -, hall⟩ := Located.resolved_progress hplain
  obtain ⟨reps, hreps, hcycles⟩ := Located.exists_represents hplain hprogress hall
  have hown := Located.own_perm hplain hprogress.nodup
    (fun x => ⟨hprogress.aliases x, hall x⟩) (located b).typeOf (plain_types hsource)
  have hperm : ((Merged.ofFiles (b.map numbered)).resolved.flatMap (·.2)).Perm
      (reps.map Located.cycleFault ++ ws.flatMap ws.typeFaults ++
        ws.flatMap (Located.initFaults (located b).typeOf)) := by
    rw [merged_eq]
    refine List.Perm.trans hacc ?_
    rw [hcycles, List.append_assoc, List.append_assoc]
    exact hown.append_left _
  refine ⟨reps, hreps, hperm, ?_⟩
  have htypes : (ws.flatMap ws.typeFaults).filter (·.diagnostic.isCyclic) = [] := by
    refine List.filter_eq_nil_iff.mpr fun f hf => ?_
    obtain ⟨x, -, hf⟩ := List.mem_flatMap.mp hf
    rw [ws.not_isCyclic_typeFaults x f hf]
    exact Bool.false_ne_true
  have hinits : (ws.flatMap (Located.initFaults (located b).typeOf)).filter
      (·.diagnostic.isCyclic) = [] := by
    refine List.filter_eq_nil_iff.mpr fun f hf => ?_
    obtain ⟨x, -, hf⟩ := List.mem_flatMap.mp hf
    rw [Located.not_isCyclic_initFaults _ x f hf]
    exact Bool.false_ne_true
  have hcyclic : (reps.map Located.cycleFault).filter (·.diagnostic.isCyclic) =
      reps.map Located.cycleFault := by
    refine List.filter_eq_self.mpr fun f hf => ?_
    obtain ⟨x, -, rfl⟩ := List.mem_map.mp hf
    exact Located.isCyclic_cycleFault x
  have hfilter := hperm.filter (·.diagnostic.isCyclic)
  rw [List.filter_append, List.filter_append, hcyclic, htypes, hinits, List.append_nil,
    List.append_nil, ← cyclic_faults] at hfilter
  exact hfilter

end ReadFile

/-- Let `ws` be the declarations of a batch that are the first of their names. A token has the type
at the end of its way through the aliases of `ws`, and none exactly when the way ends at a name that
nothing has, at a variable or function, or on a cycle. The symbol of an alias has the type of its
target. Resolving types complains once about every cycle, at a member of it and in the file of that
member, and once about every token of a header that is no type by itself, in particular about such a
target of an alias; beside that it complains about first values of variables only. -/
theorem aliases_resolve_along_graph (outcomes : List (Option Tree))
    (h : ∀ t, some t ∈ outcomes → t.FromSource) :
    ∃ ds, Located.ofFiles (parsedFiles outcomes) = .ok ds ∧
      let ws := Located.winners [] ds
      let a := Analysis.ofOutcomes outcomes
      ∃ (types : Token → Option Ty) (reps : Located),
        ((∀ t ty, types t = some ty ↔ ws.program.Denotes t ty) ∧
          ∀ t, types t = none ↔ ws.GoesAstray t) ∧
        (∀ x ∈ ws, ∃ s, a.symbols.get? x.2.name.lexeme = some s ∧ s.kind = x.2.head.kind ∧
          s.site = x.2.name.site ∧ s.ty = types x.2.head.type) ∧
        ws.Represents reps ∧
        ((Merged.ofFiles (parsedFiles outcomes)).resolved.flatMap (·.2)).Perm
          (reps.map Located.cycleFault ++ ws.flatMap ws.typeFaults ++
            ws.flatMap (Located.initFaults types)) ∧
        (a.faults.filter (·.diagnostic.isCyclic)).Perm (reps.map Located.cycleFault) := by
  obtain ⟨b, hb, -, hsource⟩ := ReadFile.exists_parsed h
  have hplain := ReadFile.plain_located b
  rw [Analysis.ofOutcomes, ← hb]
  refine ⟨_, ReadFile.ofFiles_numbered b, ?_⟩
  obtain ⟨reps, hreps, hfaults, hcycles⟩ := ReadFile.resolved_faults hsource
  refine ⟨(ReadFile.located b).typeOf, reps, ⟨Located.typeOf_eq_some_iff hplain, fun t => ?_⟩,
    fun x hx => ReadFile.get?_winner hx, hreps, hfaults, hcycles⟩
  rw [Located.goesAstray_iff hplain, Option.eq_none_iff_forall_ne_some, not_exists]
  exact forall_congr' fun ty => not_congr (Located.typeOf_eq_some_iff hplain t ty)

/-- A cycle across two files with a way into it from each, one of an alias with itself, and targets
that nothing has and that are functions; one of the aliases is declared twice. -/
theorem aliases_resolve_along_graph_two_cycles :
    let outcomes := [
      Tree.ofText? "a" "var v: r = 1;\ntype p = q;\ntype o = p;\ntype k = int;\ntype j = k;", none,
      Tree.ofText? "b" ("type q = p;\ntype r = s;\ntype s = x;\ntype t = t;\ntype u = t;\n" ++
        "type w = f;\nfunc f(c: w, d: y): u { return 1; }\ntype k = k;")]
    let resolution := (Merged.ofFiles (parsedFiles outcomes)).resolved.flatMap (·.2)
    ∃ ds types reps, Located.ofFiles (parsedFiles outcomes) = .ok ds ∧
      (Located.winners [] ds).Represents reps ∧ reps.length = 2 ∧
      resolution.map (fun f => (f.origin, f.diagnostic.key.2)) =
        [(2, 3, 10), (0, 2, 6), (2, 4, 6), (2, 6, 10), (2, 7, 17)] ∧
      resolution.Perm (reps.map Located.cycleFault ++
        (Located.winners [] ds).flatMap (Located.winners [] ds).typeFaults ++
        (Located.winners [] ds).flatMap (Located.initFaults types)) := by
  rw [Tree.ofText?_ofList, ← String.ofList_append, Tree.ofText?_ofList]
  intro outcomes resolution
  obtain ⟨ds, hds, types, reps, -, -, hreps, hfaults, hcycles⟩ :=
    aliases_resolve_along_graph outcomes Tree.fromSource_of_mem_pair
  refine ⟨ds, types, reps, hds, hreps, ?_, by decide +kernel, hfaults⟩
  have hlength := hcycles.length_eq
  rw [List.length_map] at hlength
  rw [← hlength]
  decide +kernel

end ThreeAddress
