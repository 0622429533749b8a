import ThreeAddress.Proofs.Compilation
import ThreeAddress.Proofs.Renumbering

namespace ThreeAddress

/-- Without an outcome that has no tree, the other trees are the same under other numbers. -/
theorem parsedFiles_eraseIdx {outcomes : List (Option Tree)} {i : Nat}
    (h : outcomes[i]? = some none) :
    parsedFiles outcomes = (parsedFiles (outcomes.eraseIdx i)).map (Prod.map (skipAt i) id) := by
  obtain ⟨hi, -⟩ := List.getElem?_eq_some_iff.mp h
  have hx : outcomes.zipIdx[i]? = some (none, i) := by
    rw [List.getElem?_zipIdx, h, Option.map_some, Nat.zero_add]
  calc parsedFiles outcomes
      = (outcomes.zipIdx.eraseIdx i).filterMap fun x => x.1.map (x.2, ·) :=
        (filterMap_eraseIdx hx rfl).symm
    _ = ((outcomes.eraseIdx i).zipIdx.map (Prod.map id (skipAt i))).filterMap
          fun x => x.1.map (x.2, ·) := by rw [zipIdx_eraseIdx outcomes i 0 hi, Nat.zero_add]
    _ = (parsedFiles (outcomes.eraseIdx i)).map (Prod.map (skipAt i) id) := by
        rw [List.filterMap_map, parsedFiles, List.map_filterMap]
        apply List.filterMap_congr
        rintro ⟨o, j⟩ -
        cases o <;> rfl

/-- The same symbols and the same answer; the faults of a file stand under its number. -/
structure Analysis.Skips (a a' : Analysis) (n : Nat) : Prop where
  symbols : a.symbols = a'.symbols
  valid : a.valid = a'.valid
  found : ∀ i, a.faultsByFile.getD (skipAt n i) [] = a'.faultsByFile.getD i []

theorem Analysis.skips_of_none {outcomes : List (Option Tree)} {i : Nat}
    (h : outcomes[i]? = some none) :
    (ofOutcomes outcomes).Skips (ofOutcomes (outcomes.eraseIdx i)) i := by
  have hfiles : ofOutcomes outcomes =
      ofFiles ((parsedFiles (outcomes.eraseIdx i)).map (Prod.map (skipAt i) id)) :=
    congrArg ofFiles (parsedFiles_eraseIdx h)
  rw [hfiles]
  exact ⟨symbols_renumber _ _, valid_renumber _ _, found_renumber _ _ (skipAt_injective i)⟩

namespace Compiler

variable (c : Compiler) (files : OpenFile)

/-- The code of one file, given the analysis of the batch. -/
def fileCode (a : Analysis) (path : String) : Except CodeError (List Instruction) :=
  if a.valid && !c.config.checkOnly then
    match (c.outcome files path).tree? with
    | some t => t.emit c.tables.generation a.symbols
    | none => .ok []
  else .ok []

/-- The report of one file, given its number and the analysis of the batch. -/
def fileReport (a : Analysis) (x : String × Nat) : Except CodeError FileReport :=
  (c.fileCode files a x.1).map fun code =>
    { c.report (c.outcome files x.1) (a.faultsByFile.getD x.2 []) with instructions := code }

theorem codes_eq_mapM (paths : List String) :
    c.codes files paths = paths.mapM (c.fileCode files (c.analysis files paths)) := by
  unfold codes fileCode
  cases (c.analysis files paths).valid && !c.config.checkOnly with
  | false =>
    simp only [Bool.false_eq_true, if_false, List.map_map]
    exact (List.mapM_pure (m := Except CodeError)).symm
  | true =>
    simp only [if_true, codeOf]
    rw [List.mapM_map]
    rfl

/-- Every report is made for itself, from the file and the analysis. -/
theorem reports_eq_mapM (paths : List String) :
    (c.compile files paths).map (·.1.reports) =
      paths.zipIdx.mapM (c.fileReport files (c.analysis files paths)) := by
  rw [reports_eq, codes_eq_mapM]
  exact mapM_zipIdx _ _ paths 0

/-- A failed file has a report, whatever the tables. -/
theorem exists_fileReport (a : Analysis) {path : String} {d : Diagnostic}
    (hd : c.result files path = .error d) (i : Nat) :
    ∃ r, c.fileReport files a (path, i) = .ok r := by
  have hcode : c.fileCode files a path = .ok [] := by
    rw [fileCode, tree?_outcome, hd]
    exact ite_self _
  exact ⟨_, by rw [fileReport, hcode]; rfl⟩

theorem fileReport_skips {a a' : Analysis} {n : Nat} (h : a.Skips a' n) (x : String × Nat) :
    c.fileReport files a (Prod.map id (skipAt n) x) = c.fileReport files a' x := by
  simp only [fileReport, fileCode, Prod.map_fst, Prod.map_snd, id_eq, h.symbols, h.valid, h.found]

/-- The reports of a batch without one of its files that fail. -/
theorem reports_eraseIdx {paths : List String} {i : Nat} {path : String}
    (hi : paths[i]? = some path) {d : Diagnostic} (hd : c.result files path = .error d) :
    (c.compile files paths).map (·.1.reports.eraseIdx i) =
      (c.compile files (paths.eraseIdx i)).map (·.1.reports) := by
  obtain ⟨hlt, -⟩ := List.getElem?_eq_some_iff.mp hi
  have hnone : (paths.map fun p => (c.result files p).toOption.map (·.tree))[i]? = some none := by
    rw [List.getElem?_map, hi, Option.map_some, hd]
    rfl
  have hskips : (c.analysis files paths).Skips (c.analysis files (paths.eraseIdx i)) i := by
    have h := Analysis.skips_of_none hnone
    rwa [List.eraseIdx_map] at h
  have hx : paths.zipIdx[i]? = some (path, i) := by
    rw [List.getElem?_zipIdx, hi, Option.map_some, Nat.zero_add]
  obtain ⟨r, hr⟩ := c.exists_fileReport files (c.analysis files paths) hd i
  calc (c.compile files paths).map (·.1.reports.eraseIdx i)
      = ((c.compile files paths).map (·.1.reports)).map (·.eraseIdx i) := by
        cases c.compile files paths <;> rfl
    _ = (paths.zipIdx.mapM (c.fileReport files (c.analysis files paths))).map (·.eraseIdx i) := by
        rw [reports_eq_mapM]
    _ = (paths.zipIdx.eraseIdx i).mapM (c.fileReport files (c.analysis files paths)) :=
        mapM_eraseIdx hx hr
    _ = (paths.eraseIdx i).zipIdx.mapM
          (c.fileReport files (c.analysis files (paths.eraseIdx i))) := by
        rw [zipIdx_eraseIdx paths i 0 hlt, Nat.zero_add, List.mapM_map]
        exact congrArg (List.mapM · _) (funext (c.fileReport_skips files hskips))
    _ = (c.compile files (paths.eraseIdx i)).map (·.1.reports) := (c.reports_eq_mapM files _).symm

/-- A batch reads its own paths only. -/
theorem compile_congr {files' : OpenFile} {paths : List String}
    (h : ∀ p ∈ paths, files' p = files p) : c.compile files' paths = c.compile files paths := by
  have hall : c.parseAll files' paths = c.parseAll files paths := by
    have htasks :
        paths.map (fun p budget =>
            Attempt.ofExcept (parseFile c.tables.transition files' p budget)) =
          paths.map (fun p budget =>
            Attempt.ofExcept (parseFile c.tables.transition files p budget)) := by
      apply List.map_congr_left
      intro p hp
      funext budget
      rw [parseFile, parseFile, h p hp]
    rw [parseAll, parseAll, htasks]
  rw [compile, compile, hall]

end Compiler

/-- Let the file at place `i` fail to open, to lex or to parse. The other reports of the batch are
those of the batch without this place. So they are the same with anything else in that file that
fails too. -/
theorem failure_stays_local (c : Compiler) (files : OpenFile) (paths : List String) (i : Nat)
    (path : String) (d : Diagnostic) (hi : paths[i]? = some path)
    (hd : parseFile c.tables.transition files path c.budget = .error d) :
    (c.compile files paths).map (·.1.reports.eraseIdx i) =
        (c.compile files (paths.eraseIdx i)).map (·.1.reports) ∧
      ∀ (files' : OpenFile) (d' : Diagnostic), (∀ p ∈ paths.eraseIdx i, files' p = files p) →
        parseFile c.tables.transition files' path c.budget = .error d' →
          (c.compile files' paths).map (·.1.reports.eraseIdx i) =
            (c.compile files paths).map (·.1.reports.eraseIdx i) := by
  have hlocal := c.reports_eraseIdx files hi hd
  refine ⟨hlocal, ?_⟩
  intro files' d' hsame hd'
  have hlocal' := c.reports_eraseIdx files' hi hd'
  rw [hlocal', hlocal, c.compile_congr files hsame]

/-- Behind a file that is cut off, the fault of another file stays in the report of that file. -/
theorem failure_stays_local_cut_off_in_front :
    let c : Compiler := ⟨.default, .built, false⟩
    let files : OpenFile := fun path =>
      let text := if path = "cut" then "func g(" else "func f(): int { return y; }"
      .ok (.ofBytes text.toUTF8.toList)
    ∃ d, parseFile c.tables.transition files "cut" c.budget = .error d ∧
      (((c.compile files ["cut", "main"]).map (·.1.reports.eraseIdx 0)).map fun rs =>
        rs.map fun r => (r.file, r.diagnostics.map (·.message))).toOption =
          some [("main", ["undeclared identifier `y`"])] := by
  intro c files
  have hfails : (parseFile c.tables.transition files "cut" c.budget).toOption = none := by
    decide +kernel
  have halone : (((c.compile files ["main"]).map (·.1.reports)).map fun rs =>
      rs.map fun r => (r.file, r.diagnostics.map (·.message))).toOption =
        some [("main", ["undeclared identifier `y`"])] := by
    decide +kernel
  cases hd : parseFile c.tables.transition files "cut" c.budget with
  | ok parsed =>
    rw [hd] at hfails
    cases hfails
  | error d =>
    obtain ⟨hlocal, -⟩ := failure_stays_local c files ["cut", "main"] 0 "cut" d rfl hd
    refine ⟨d, rfl, ?_⟩
    rw [hlocal]
    exact halone

end ThreeAddress
