import ThreeAddress.Proofs.Isolation

namespace ThreeAddress

namespace Diagnostic

theorem fileLe_trans {a b c : Option String} (hab : fileLe a b = true) (hbc : fileLe b c = true) :
    fileLe a c = true := by
  cases a with
  | none => rfl
  | some x =>
    cases b with
    | none => cases hab
    | some y =>
      cases c with
      | none => cases hbc
      | some z =>
        exact decide_eq_true (String.le_trans (of_decide_eq_true hab) (of_decide_eq_true hbc))

theorem fileLe_antisymm {a b : Option String} (hab : fileLe a b = true) (hba : fileLe b a = true) :
    a = b := by
  cases a with
  | none =>
    cases b with
    | none => rfl
    | some y => cases hba
  | some x =>
    cases b with
    | none => cases hab
    | some y =>
      exact congrArg some (String.le_antisymm (of_decide_eq_true hab) (of_decide_eq_true hba))

theorem fileLe_total (a b : Option String) : fileLe a b = true ∨ fileLe b a = true := by
  cases a with
  | none => exact .inl rfl
  | some x =>
    cases b with
    | none => exact .inr rfl
    | some y => exact (String.le_total x y).imp decide_eq_true decide_eq_true

/-- A place is at or behind another one of its file. -/
def PlaceLe (p q : Nat × Nat) : Prop := p.1 < q.1 ∨ p.1 = q.1 ∧ p.2 ≤ q.2

theorem keyLe_iff (a b : Option String × Nat × Nat) :
    keyLe a b = true ↔ (a.1 = b.1 ∧ PlaceLe a.2 b.2) ∨ (a.1 ≠ b.1 ∧ fileLe a.1 b.1 = true) := by
  unfold keyLe PlaceLe
  split
  · next h => simp [h]
  · next h => simp [h]

theorem keyLe_trans (a b c : Option String × Nat × Nat) (hab : keyLe a b = true)
    (hbc : keyLe b c = true) : keyLe a c = true := by
  rw [keyLe_iff] at hab hbc ⊢
  rcases hab with ⟨hab, hp⟩ | ⟨hab, hf⟩
  · rcases hbc with ⟨hbc, hq⟩ | ⟨hbc, hg⟩
    · refine .inl ⟨hab.trans hbc, ?_⟩
      unfold PlaceLe at *
      omega
    · exact .inr ⟨hab ▸ hbc, hab ▸ hg⟩
  · rcases hbc with ⟨hbc, -⟩ | ⟨hbc, hg⟩
    · exact .inr ⟨hbc ▸ hab, hbc ▸ hf⟩
    · -- Two files in order one way and the other would be the same.
      refine .inr ⟨fun hac => hab (fileLe_antisymm hf (hac ▸ hg)), fileLe_trans hf hg⟩

theorem keyLe_total (a b : Option String × Nat × Nat) :
    (keyLe a b || keyLe b a) = true := by
  rw [Bool.or_eq_true, keyLe_iff, keyLe_iff]
  by_cases h : a.1 = b.1
  · have hp : PlaceLe a.2 b.2 ∨ PlaceLe b.2 a.2 := by
      unfold PlaceLe
      omega
    exact hp.imp (fun hp => .inl ⟨h, hp⟩) fun hp => .inl ⟨h.symm, hp⟩
  · exact (fileLe_total a.1 b.1).imp (fun hf => .inr ⟨h, hf⟩) fun hf => .inr ⟨Ne.symm h, hf⟩

/-- Line and column, zero where there is none. -/
def position (d : Diagnostic) : Nat × Nat := d.key.2

/-- The same diagnostics in order of their positions; those at one position keep their order. -/
structure Reorders (ds es : List Diagnostic) : Prop where
  perm : es.Perm ds
  ordered : es.Pairwise fun d e => PlaceLe d.position e.position
  stable : ∀ p, es.filter (·.position = p) = ds.filter (·.position = p)

/-- Diagnostics of one file are sorted by their positions only. -/
theorem reorders_sort {file : String} {ds : List Diagnostic}
    (h : ∀ d ∈ ds, d.place.file? = some file) : Reorders ds (sort ds) := by
  have hsort : ∀ d ∈ sort ds, d.place.file? = some file := fun d hd =>
    h d ((sort_perm ds).mem_iff.mp hd)
  refine ⟨sort_perm ds, ?_, fun p => ?_⟩
  · have hkeys : (sort ds).Pairwise fun d e => keyLe d.key e.key = true :=
      List.pairwise_mergeSort (fun a b c => keyLe_trans a.key b.key c.key)
        (fun a b => keyLe_total a.key b.key) ds
    refine List.Pairwise.imp_of_mem (fun {d e} hd he hle => ?_) hkeys
    have hfile : d.key.1 = e.key.1 := (hsort d hd).trans (hsort e he).symm
    rcases (keyLe_iff _ _).mp hle with ⟨-, hp⟩ | ⟨hne, -⟩
    · exact hp
    · exact absurd hfile hne
  · -- What stands at one position is in order already, so that sorting keeps it as it is.
    have hsame : (ds.filter (·.position = p)).Pairwise fun d e => keyLe d.key e.key = true := by
      refine List.pairwise_of_forall_mem_list fun d hd e he => ?_
      obtain ⟨hd, hdp⟩ := List.mem_filter.mp hd
      obtain ⟨he, hep⟩ := List.mem_filter.mp he
      have hpos : d.key.2 = e.key.2 := (of_decide_eq_true hdp).trans (of_decide_eq_true hep).symm
      refine (keyLe_iff _ _).mpr (.inl ⟨(h d hd).trans (h e he).symm, ?_⟩)
      rw [hpos]
      exact .inr ⟨rfl, Nat.le_refl _⟩
    have hsub : (ds.filter (·.position = p)).Sublist (sort ds) :=
      List.sublist_mergeSort (fun a b c => keyLe_trans a.key b.key c.key)
        (fun a b => keyLe_total a.key b.key) hsame List.filter_sublist
    have hfilter := hsub.filter (·.position = p)
    rw [List.filter_filter, List.filter_congr fun d _ => Bool.and_self _] at hfilter
    exact (hfilter.eq_of_length ((sort_perm ds).filter _).length_eq.symm).symm

end Diagnostic

namespace FileOutcome

/-- A tree is that of a source that lexes under the label of the file, and parses by some table. -/
def Lexed (o : FileOutcome) : Prop :=
  ∀ parsed, o.result = .ok parsed → ∃ budget s ts table,
    tokenize budget o.path s = .ok ts ∧ parse table ts = .ok parsed.tree

theorem all_of_lexed {o : FileOutcome} (h : o.Lexed) {t : Tree} (ht : o.tree? = some t) :
    (∃ parsed, o.result = .ok parsed) ∧ ∀ n ∈ t.items, n.All fun u => u.site.file = o.path := by
  cases hr : o.result with
  | error d => simp [tree?, hr, Except.toOption] at ht
  | ok parsed =>
    simp only [tree?, hr, Except.toOption, Option.map_some, Option.some.injEq] at ht
    obtain ⟨budget, s, ts, table, hl, hp⟩ := h parsed hr
    exact ⟨⟨parsed, rfl⟩, ht ▸ all_parse (tokenize_sites hl).1 hp⟩

end FileOutcome

namespace Analysis

theorem mem_parsedFiles {outcomes : List FileOutcome} {x : Nat × Tree}
    (h : x ∈ parsedFiles (outcomes.map (·.tree?))) :
    ∃ o, outcomes[x.1]? = some o ∧ o.tree? = some x.2 := by
  obtain ⟨⟨t?, i⟩, hm, hx⟩ := List.mem_filterMap.mp h
  obtain ⟨t, rfl, rfl⟩ := Option.map_eq_some_iff.mp hx
  have hi := List.mem_zipIdx_iff_getElem?.mp hm
  rw [List.getElem?_map] at hi
  exact Option.map_eq_some_iff.mp hi

/-- A fault belongs to a file that was parsed and stands in it. -/
theorem fault_at_origin {outcomes : List FileOutcome} (h : ∀ o ∈ outcomes, o.Lexed) {f : Fault}
    (hf : f ∈ (ofOutcomes (outcomes.map (·.tree?))).faults) :
    ∃ o parsed, outcomes[f.origin]? = some o ∧ o.result = .ok parsed ∧
      f.diagnostic.place.file? = some o.path := by
  let P (i : Nat) (t : Token) : Prop := ∃ o parsed, outcomes[i]? = some o ∧
    o.result = .ok parsed ∧ t.site.file = o.path
  have hall : ∀ x ∈ parsedFiles (outcomes.map (·.tree?)), ∀ n ∈ x.2.items, n.All (P x.1) := by
    intro x hx n hn
    obtain ⟨o, ho, ht⟩ := mem_parsedFiles hx
    obtain ⟨⟨parsed, hr⟩, hitems⟩ := FileOutcome.all_of_lexed (h o (List.mem_of_getElem? ho)) ht
    exact (hitems n hn).imp fun t ht => ⟨o, parsed, ho, hr, ht⟩
  obtain ⟨-, t, ⟨o, parsed, ho, hr, hfile⟩, hplace⟩ := stands_ofFiles hall f hf
  exact ⟨o, parsed, ho, hr, by rw [hplace]; exact congrArg some hfile⟩

/-- What an analysis finds in the file of a number. -/
def found (a : Analysis) (i : Nat) : List Diagnostic :=
  (a.faults.filter (·.origin = i)).map (·.diagnostic)

theorem getD_faultsByFile (a : Analysis) (i : Nat) : a.faultsByFile.getD i [] = a.found i := by
  rw [faultsByFile, getD_group]
  rfl

end Analysis

/-- The report of a file has what was found in it. In a file without a tree nothing is found, and
the report has the problem of the file. -/
def FileReport.Collects (r : FileReport) (o : FileOutcome) (found : List Diagnostic) : Prop :=
  r.file = o.path ∧
    match o.result with
    | .ok _ => Diagnostic.Reorders found r.diagnostics
    | .error d => found = [] ∧ r.diagnostics = [d]

namespace Compiler

variable (c : Compiler) (files : OpenFile)

theorem lexed_outcome (path : String) : (c.outcome files path).Lexed := by
  intro parsed h
  obtain ⟨s, ts, hl, hp⟩ := parseFile_eq_ok (mapError_eq_ok.mp h)
  exact ⟨c.budget, s, ts, c.tables.transition, hl, hp⟩

theorem forall_lexed (paths : List String) : ∀ o ∈ paths.map (c.outcome files), o.Lexed := by
  intro o ho
  obtain ⟨path, -, rfl⟩ := List.mem_map.mp ho
  exact c.lexed_outcome files path

/-- With the tables of the language, or with a fault, there are reports. -/
theorem exists_compile {paths : List String}
    (h : c.tables = .built ∨ (c.analysis files paths).faults ≠ []) :
    ∃ out log, c.compile files paths = .ok (out, log) := by
  have hemit : (c.analysis files paths).valid = true → ∀ path ∈ paths, ∀ parsed,
      c.result files path = .ok parsed → ∃ code,
        parsed.tree.emit c.tables.generation (c.analysis files paths).symbols = .ok code := by
    intro hv path hp parsed hr
    rcases h with hbuilt | hfaults
    · have htable : c.tables.transition = Grammar.table := by rw [hbuilt]; rfl
      have hphase : c.tables.generation = Phase.table := by rw [hbuilt]; rfl
      rw [hphase]
      refine Analysis.emit_ok (fun t => c.fromSource files htable) hv
        (List.mem_map.mpr ⟨path, hp, ?_⟩)
      rw [hr]
      rfl
    · exact absurd ((Analysis.valid_iff_no_faults _).mp hv) hfaults
  obtain ⟨codes, hcodes, -⟩ := c.codes_fit files hemit
  obtain ⟨out, log, hcompile, -⟩ := c.compile_eq files hcodes
  exact ⟨out, log, hcompile⟩

theorem batchDiagnostics_eq {paths : List String} {out : BatchOutput} {log : List LogLine}
    (h : c.compile files paths = .ok (out, log)) :
    out.batchDiagnostics = strayFaults (c.analysis files paths) paths.length := by
  obtain ⟨outcomes, log', hall⟩ : ∃ outcomes log, c.parseAll files paths = (outcomes, log) :=
    ⟨_, _, rfl⟩
  have houtcomes : outcomes = paths.map (c.outcome files) := by
    rw [← c.parseAll_eq files paths, hall]
  subst houtcomes
  simp only [compile, hall, analysis_eq] at h
  split at h
  all_goals
    obtain ⟨code, -, h⟩ := bind_eq_ok.mp h
    cases h
    rw [List.length_map]

/-- The report of a path is made of its outcome and of what was found under its number. -/
theorem collects_fileReport {paths : List String} {i : Nat} {path : String} {r : FileReport}
    (hp : paths[i]? = some path)
    (h : c.fileReport files (c.analysis files paths) (path, i) = .ok r) :
    r.Collects (c.outcome files path) ((c.analysis files paths).found i) := by
  obtain ⟨code, -, rfl⟩ := map_eq_ok.mp h
  refine ⟨rfl, ?_⟩
  rw [Analysis.getD_faultsByFile]
  have hget : (paths.map (c.outcome files))[i]? = some (c.outcome files path) := by
    rw [List.getElem?_map, hp]
    rfl
  have hfound : ∀ d ∈ (c.analysis files paths).found i, d.place.file? = some path ∧
      ∃ parsed, (c.outcome files path).result = .ok parsed := by
    intro d hd
    obtain ⟨f, hf, rfl⟩ := List.mem_map.mp hd
    obtain ⟨hf, hi⟩ := List.mem_filter.mp hf
    rw [← c.analysis_eq files paths] at hf
    obtain ⟨o, parsed, ho, hr, hfile⟩ := Analysis.fault_at_origin (c.forall_lexed files paths) hf
    rw [of_decide_eq_true hi, hget] at ho
    cases ho
    exact ⟨hfile, parsed, hr⟩
  generalize (c.analysis files paths).found i = found at hfound
  unfold report faultsOf
  cases hr : (c.outcome files path).result with
  | ok parsed => exact Diagnostic.reorders_sort fun d hd => (hfound d hd).1
  | error d =>
    have hnone : found = [] := by
      refine List.eq_nil_iff_forall_not_mem.mpr fun e he => ?_
      obtain ⟨-, parsed, hok⟩ := hfound e he
      rw [hr] at hok
      cases hok
    refine ⟨hnone, ?_⟩
    rw [hnone]
    exact Diagnostic.sort_singleton d

end Compiler

/-- Faults and their origins go together: every origin is the number of a file that was parsed, and
the fault stands in that file. Compiling returns reports, with the tables of the language always and
with other tables when there is a fault. No fault is left to the batch as a whole, and the report
of every file has the faults of its number, ordered by line and column. -/
theorem faults_reach_their_reports :
    (∀ outcomes : List FileOutcome, (∀ o ∈ outcomes, o.Lexed) →
      let a := Analysis.ofOutcomes (outcomes.map (·.tree?))
      a.diagnostics.length = (a.faults.map (·.origin)).length ∧
      ∀ f ∈ a.faults, ∃ o parsed, outcomes[f.origin]? = some o ∧ o.result = .ok parsed ∧
        f.diagnostic.place.file? = some o.path) ∧
    ∀ (c : Compiler) (files : OpenFile) (paths : List String),
      let outcomes := (c.parseAll files paths).1
      let a := Analysis.ofOutcomes (outcomes.map (·.tree?))
      (c.tables = .built ∨ a.faults ≠ [] → ∃ out log, c.compile files paths = .ok (out, log)) ∧
      ∀ out log, c.compile files paths = .ok (out, log) →
        out.batchDiagnostics = [] ∧ outcomes.map (·.path) = paths ∧
        (∀ f ∈ a.faults, f.origin < out.reports.length) ∧
        List.Forall₂ (fun x r => r.Collects x.1 (a.found x.2)) outcomes.zipIdx out.reports := by
  refine ⟨fun outcomes h => ?_, fun c files paths => ?_⟩
  · refine ⟨by rw [Analysis.diagnostics, List.length_map, List.length_map], fun f hf => ?_⟩
    exact Analysis.fault_at_origin h hf
  · intro outcomes a
    have houtcomes : outcomes = paths.map (c.outcome files) := c.parseAll_eq files paths
    have ha : a = c.analysis files paths := by
      rw [← c.analysis_eq files paths, ← houtcomes]
    have horigin : ∀ f ∈ a.faults, f.origin < paths.length := by
      intro f hf
      rw [ha, ← c.analysis_eq files paths] at hf
      obtain ⟨o, -, ho, -⟩ := Analysis.fault_at_origin (c.forall_lexed files paths) hf
      obtain ⟨hlt, -⟩ := List.getElem?_eq_some_iff.mp ho
      rwa [List.length_map] at hlt
    refine ⟨fun h => c.exists_compile files (ha ▸ h), fun out log hcompile => ?_⟩
    have hreports := c.reports_eq_mapM files paths
    rw [hcompile] at hreports
    have hmade := forall₂_of_mapM hreports.symm
    have hlength : out.reports.length = paths.length := by
      rw [← hmade.length_eq, List.length_zipIdx]
    refine ⟨?_, ?_, fun f hf => hlength ▸ horigin f hf, ?_⟩
    · rw [c.batchDiagnostics_eq files hcompile, ← ha, Compiler.strayFaults, List.map_eq_nil_iff,
        List.filter_eq_nil_iff]
      intro f hf
      have := horigin f hf
      simp only [decide_eq_true_eq]
      omega
    · rw [houtcomes, List.map_map]
      exact List.map_id _
    · rw [houtcomes, List.zipIdx_map, List.forall₂_map_left_iff, ha]
      have hmember : List.Forall₂ (fun x r => x ∈ paths.zipIdx ∧
          c.fileReport files (c.analysis files paths) x = .ok r) paths.zipIdx out.reports :=
        (List.forall₂_and_left _ _).mpr ⟨fun x hx => hx, hmade⟩
      refine hmember.imp fun x r h => ?_
      exact c.collects_fileReport files (List.mem_zipIdx_iff_getElem?.mp h.1) h.2

/-- A cycle of aliases is found from the first file and belongs to the third one, like a fault in
front of it that is found later. The file between them is cut off. -/
theorem faults_reach_their_reports_across_files :
    let c : Compiler := ⟨.default, .built, false⟩
    let files : OpenFile := fun path =>
      let text := if path = "main" then "var v: m;" else if path = "cut" then "func g(" else
        "var y: int = 2.5;\ntype m = n;\ntype n = m;"
      .ok (.ofBytes text.toUTF8.toList)
    let outcomes := (c.parseAll files ["main", "cut", "lib"]).1
    let a := Analysis.ofOutcomes (outcomes.map (·.tree?))
    a.faults.map (fun f => (f.origin, f.diagnostic.position)) = [(2, 2, 6), (2, 1, 14)] ∧
      (∀ o ∈ outcomes, o.Lexed) ∧
      (∀ f ∈ a.faults, ∃ o parsed, outcomes[f.origin]? = some o ∧ o.result = .ok parsed ∧
        f.diagnostic.place.file? = some o.path) ∧
      ∃ out log, c.compile files ["main", "cut", "lib"] = .ok (out, log) ∧
        out.batchDiagnostics = [] ∧
        List.Forall₂ (fun x r => r.Collects x.1 (a.found x.2)) outcomes.zipIdx out.reports := by
  intro c files outcomes a
  have hlexed : ∀ o ∈ outcomes, o.Lexed := by
    have h := c.forall_lexed files ["main", "cut", "lib"]
    rwa [← c.parseAll_eq] at h
  obtain ⟨hanalysis, hcompile⟩ := faults_reach_their_reports
  obtain ⟨hexists, hout⟩ := hcompile c files ["main", "cut", "lib"]
  obtain ⟨out, log, hok⟩ := hexists (.inl rfl)
  obtain ⟨hbatch, -, -, hreports⟩ := hout out log hok
  exact ⟨by decide +kernel, hlexed, (hanalysis outcomes hlexed).2, out, log, hok, hbatch, hreports⟩

end ThreeAddress
