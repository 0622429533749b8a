import ThreeAddress.Proofs.Faults

namespace ThreeAddress

variable (ρ : Nat → Nat)

def Fault.renumber (f : Fault) : Fault := ⟨ρ f.origin, f.diagnostic⟩

def Accepted.renumber (a : Accepted) : Accepted := ⟨ρ a.origin, a.declaration⟩

def AliasTarget.renumber (u : AliasTarget) : AliasTarget := ⟨u.token, ρ u.origin⟩

def AliasWalk.renumber (w : AliasWalk) : AliasWalk := ⟨w.ty, w.fault.map (Fault.renumber ρ), w.path⟩

namespace Merged

def renumber (m : Merged) : Merged :=
  ⟨m.symbols, m.accepted.map (Accepted.renumber ρ), m.faults.map (Fault.renumber ρ)⟩

theorem merge_renumber (t : SymbolTable) (xs : List (Nat × Finding)) :
    merge t (xs.map (Prod.map ρ id)) = (merge t xs).renumber ρ := by
  induction xs generalizing t with
  | nil => rfl
  | cons x xs ih =>
    obtain ⟨i, x⟩ := x
    cases x with
    | unreadable m =>
      simp only [List.map_cons, Prod.map_apply, id_eq, merge, ih]
      rfl
    | declared d =>
      simp only [List.map_cons, Prod.map_apply, id_eq, merge]
      split
      · cases enroll t d with
        | ok t' =>
          simp only [ih]
          rfl
        | error fault =>
          simp only [ih]
          rfl
      · exact ih t

theorem ofFiles_renumber (files : List (Nat × Tree)) :
    ofFiles (files.map (Prod.map ρ id)) = (ofFiles files).renumber ρ := by
  rw [ofFiles, ofFiles, ← merge_renumber]
  simp [List.flatMap_map, List.map_flatMap, Function.comp_def]

end Merged

/-- The same aliases, with other numbers for the files of their targets. -/
structure Aliases.Renumbered (a a' : Aliases) : Prop where
  symbols : a'.symbols = a.symbols
  known : a'.known = a.known
  targets : ∀ x : String, a'.targets[x]? = a.targets[x]?.map (AliasTarget.renumber ρ)
  size : a'.targets.size = a.targets.size

/-- The same result, with other numbers in the faults and in the aliases behind it. -/
structure Aliases.Agree {α : Type} (x x' : α × List Fault × Aliases) : Prop where
  result : x'.1 = x.1
  faults : x'.2.1 = x.2.1.map (Fault.renumber ρ)
  aliases : x.2.2.Renumbered ρ x'.2.2

variable {ρ}

namespace Aliases

theorem targetsOnto_renumber {m m' : Std.TreeMap String AliasTarget}
    (htargets : ∀ x : String, m'[x]? = m[x]?.map (AliasTarget.renumber ρ))
    (hsize : m'.size = m.size) (as : List Accepted) :
    (∀ x : String, (targetsOnto m' (as.map (Accepted.renumber ρ)))[x]? =
        (targetsOnto m as)[x]?.map (AliasTarget.renumber ρ)) ∧
      (targetsOnto m' (as.map (Accepted.renumber ρ))).size = (targetsOnto m as).size := by
  induction as generalizing m m' with
  | nil => exact ⟨htargets, hsize⟩
  | cons a as ih =>
    obtain ⟨i, d⟩ := a
    cases d with
    | «alias» name target =>
      have hcontains : m'.contains name.lexeme = m.contains name.lexeme := by
        rw [Std.TreeMap.contains_eq_isSome_getElem?, htargets, Option.isSome_map,
          Std.TreeMap.contains_eq_isSome_getElem?]
      have hinsert : ∀ x : String, (m'.insert name.lexeme ⟨target, ρ i⟩)[x]? =
          (m.insert name.lexeme ⟨target, i⟩)[x]?.map (AliasTarget.renumber ρ) := by
        intro x
        rw [Std.TreeMap.getElem?_insert, Std.TreeMap.getElem?_insert, htargets]
        split <;> rfl
      have hgrow : (m'.insert name.lexeme ⟨target, ρ i⟩).size =
          (m.insert name.lexeme ⟨target, i⟩).size := by
        rw [Std.TreeMap.size_insert, Std.TreeMap.size_insert, hsize, hcontains]
      exact ih hinsert hgrow
    | _ => exact ih htargets hsize

theorem renumbered_ofAccepted (symbols : SymbolTable) (as : List Accepted) :
    (ofAccepted symbols as).Renumbered ρ (ofAccepted symbols (as.map (Accepted.renumber ρ))) := by
  have hempty : ∀ x : String, ({} : Std.TreeMap String AliasTarget)[x]? =
      ({} : Std.TreeMap String AliasTarget)[x]?.map (AliasTarget.renumber ρ) := by simp
  obtain ⟨htargets, hsize⟩ := targetsOnto_renumber hempty rfl as
  exact ⟨rfl, rfl, htargets, hsize⟩

variable {a a' : Aliases} (h : a.Renumbered ρ a')
include h

theorem walk_renumber (fuel : Nat) (path : AliasPath) (i : Nat) (t : Token) :
    a'.walk fuel path (ρ i) t = (a.walk fuel path i t).renumber ρ := by
  fun_induction walk a fuel path i t with
  | case1 fuel path i t ty hn =>
    rw [walk, h.symbols, hn]
    rfl
  | case2 fuel path i t hn =>
    rw [walk, h.symbols, hn]
    rfl
  | case3 fuel path i t s hn d =>
    rw [walk, h.symbols, hn]
    rfl
  | case4 fuel path i t s hn ty hk =>
    rw [walk, h.symbols, hn]
    simp only [h.known, hk]
    rfl
  | case5 path i t s hn target fuel hu hk hmem =>
    rw [walk, h.symbols, hn]
    simp only [h.known, h.targets, hk, hu, Option.map_some, hmem, if_true]
    rfl
  | case6 path i t s hn target fuel hu hk hmem ih =>
    rw [walk, h.symbols, hn]
    simp only [h.known, h.targets, hk, hu, Option.map_some, hmem, if_false]
    exact ih
  | case7 fuel path i t s hn hk hfuel =>
    rw [walk, h.symbols, hn]
    simp only [h.known, h.targets, hk]
    cases hu : a.targets[s.name]? with
    | none => rfl
    | some target =>
      cases fuel with
      | zero => rfl
      | succ fuel => exact absurd rfl (hfuel target fuel hu)

theorem Renumbered.learn (w : AliasWalk) : (a.learn w).Renumbered ρ (a'.learn (w.renumber ρ)) := by
  refine ⟨h.symbols, ?_, h.targets, h.size⟩
  simp only [Aliases.learn, AliasWalk.renumber, h.known]

theorem agree_resolve (i : Nat) (t : Token) : Agree ρ (a.resolve i t) (a'.resolve (ρ i) t) := by
  have hwalk := walk_renumber h (a.targets.size + 1) .empty i t
  rw [resolve, resolve, h.size, hwalk]
  refine ⟨rfl, ?_, h.learn _⟩
  exact Option.toList_map ..

theorem agree_resolveAlias (name : String) :
    Agree ρ (a.resolveAlias name) (a'.resolveAlias name) := by
  rw [resolveAlias, resolveAlias, h.known, h.targets, h.size]
  cases a.known[name]? with
  | some ty => exact ⟨rfl, rfl, h⟩
  | none =>
    cases a.targets[name]? with
    | none => exact ⟨rfl, rfl, h⟩
    | some target =>
      have hwalk := walk_renumber h a.targets.size (AliasPath.empty.push name) target.origin
        target.token
      simp only [Option.map_some, AliasTarget.renumber, hwalk]
      refine ⟨rfl, ?_, h.learn _⟩
      exact Option.toList_map ..

theorem agree_resolveAll (i : Nat) (ts : List Token) :
    Agree ρ (a.resolveAll i ts) (a'.resolveAll (ρ i) ts) := by
  induction ts generalizing a a' with
  | nil => exact ⟨rfl, rfl, h⟩
  | cons t ts ih =>
    have hfirst := agree_resolve h i t
    have hrest := ih hfirst.aliases
    refine ⟨?_, ?_, hrest.aliases⟩
    · simp only [resolveAll, hfirst.result, hrest.result]
    · simp only [resolveAll, hfirst.faults, hrest.faults, List.map_append]

end Aliases

namespace Resolution

/-- Types and faults, the faults with other numbers. -/
def renumber (ρ : Nat → Nat) (x : ResolvedTypes × List Fault) : ResolvedTypes × List Fault :=
  (x.1, x.2.map (Fault.renumber ρ))

/-- What one declaration gives, and the state behind it. -/
theorem step_renumber {r r' : Resolution} (ha : r.aliases.Renumbered ρ r'.aliases)
    (hs : r'.signatures = r.signatures) (d : Accepted) :
    (r'.step (d.renumber ρ)).1 = (r.step d).1 ∧
      (r'.step (d.renumber ρ)).2.1 = (r.step d).2.1.map (Fault.renumber ρ) ∧
      (r.step d).2.2.aliases.Renumbered ρ (r'.step (d.renumber ρ)).2.2.aliases ∧
      (r'.step (d.renumber ρ)).2.2.signatures = (r.step d).2.2.signatures := by
  obtain ⟨i, d⟩ := d
  cases d with
  | «alias» name target =>
    have h := Aliases.agree_resolveAlias ha name.lexeme
    refine ⟨?_, h.faults, h.aliases, hs⟩
    simp only [step, Accepted.renumber, h.result]
  | «global» name type init =>
    have h := Aliases.agree_resolve ha i type
    refine ⟨?_, ?_, h.aliases, hs⟩
    · simp only [step, Accepted.renumber, h.result]
    · simp only [step, Accepted.renumber, h.result, h.faults, List.map_append, List.map_map]
      rfl
  | function name ret params =>
    have hret := Aliases.agree_resolve ha i ret
    have hparams := Aliases.agree_resolveAll hret.aliases i params
    refine ⟨?_, ?_, hparams.aliases, ?_⟩
    · simp only [step, Accepted.renumber, hret.result, hparams.result]
    · simp only [step, Accepted.renumber, hret.faults, hparams.faults, List.map_append]
    · simp only [step, Accepted.renumber, hparams.result, hs]
  | param owner slot name type =>
    refine ⟨?_, rfl, ha, hs⟩
    simp only [step, Accepted.renumber, hs]

theorem steps_renumber {r r' : Resolution} (ha : r.aliases.Renumbered ρ r'.aliases)
    (hs : r'.signatures = r.signatures) (ds : List Accepted) :
    r'.steps (ds.map (Accepted.renumber ρ)) = (r.steps ds).map (renumber ρ) := by
  induction ds generalizing r r' with
  | nil => rfl
  | cons d ds ih =>
    obtain ⟨htypes, hfaults, ha', hs'⟩ := step_renumber ha hs d
    have hrest := ih ha' hs'
    simp only [List.map_cons, steps, htypes, hfaults, hrest]
    rfl

end Resolution

namespace Merged

theorem resolved_renumber (m : Merged) :
    (m.renumber ρ).resolved = m.resolved.map (Resolution.renumber ρ) := by
  have h : (Resolution.start m).aliases.Renumbered ρ (Resolution.start (m.renumber ρ)).aliases :=
    Aliases.renumbered_ofAccepted m.symbols m.accepted
  exact Resolution.steps_renumber h rfl m.accepted

theorem typedSymbols_renumber (m : Merged) :
    (m.renumber ρ).typedSymbols = m.typedSymbols := by
  rw [typedSymbols, resolved_renumber, List.foldl_map]
  rfl

end Merged

namespace Analysis

variable (ρ) (files : List (Nat × Tree))

theorem headers_renumber : headers (files.map (Prod.map ρ id)) = headers files := by
  rw [headers, Merged.ofFiles_renumber, Merged.typedSymbols_renumber, headers]

theorem symbols_renumber :
    (ofFiles (files.map (Prod.map ρ id))).symbols = (ofFiles files).symbols := by
  simp only [ofFiles, headers_renumber, List.flatMap_map]
  rfl

theorem faults_renumber :
    (ofFiles (files.map (Prod.map ρ id))).faults =
      (ofFiles files).faults.map (Fault.renumber ρ) := by
  simp only [ofFiles, headers_renumber, Merged.ofFiles_renumber,
    Merged.resolved_renumber, List.map_append, List.map_flatMap, List.flatMap_map, List.map_map]
  rfl

theorem valid_renumber :
    (ofFiles (files.map (Prod.map ρ id))).valid = (ofFiles files).valid := by
  rw [valid, valid, diagnostics, diagnostics, faults_renumber, List.map_map]
  rfl

/-- The faults of a file are found under its other number, if no other file has that number. -/
theorem found_renumber (hρ : Function.Injective ρ) (i : Nat) :
    (ofFiles (files.map (Prod.map ρ id))).faultsByFile.getD (ρ i) [] =
      (ofFiles files).faultsByFile.getD i [] := by
  rw [faultsByFile, faultsByFile, getD_group, getD_group, faults_renumber, List.filter_map,
    List.map_map]
  have hsame (f : Fault) : ((f.renumber ρ).origin == ρ i) = (f.origin == i) := by
    rw [Bool.eq_iff_iff, beq_iff_eq, beq_iff_eq]
    exact hρ.eq_iff
  simp only [Function.comp_def, hsame]
  rfl

end Analysis

end ThreeAddress
