import ThreeAddress.Batch.Compile
import ThreeAddress.Proofs.Symbols

namespace ThreeAddress

/-- The code that a file gets, given what became of the file and the analysis of the batch. -/
structure CodeFits (table : GenerationTable) (result : Except Diagnostic Parsed) (a : Analysis)
    (checkOnly : Bool) (code : List Instruction) : Prop where
  failed : ∀ d, result = .error d → code = []
  skipped : a.valid = false ∨ checkOnly = true → code = []
  lowered : a.valid = true → checkOnly = false → ∀ parsed, result = .ok parsed →
    parsed.tree.emit table a.symbols = .ok code

/-- What the report of a path says. A file that does not open, lex or parse has one problem and no
code, and no file has code if the batch has a problem or none is wanted. Else the code is that of
the tree. -/
structure FileReport.Answers (r : FileReport) (files : OpenFile) (budget : Budget) (path : String)
    (a : Analysis) (checkOnly : Bool) : Prop where
  file : r.file = path
  unopened : ∀ e, files path = .error e →
    r.diagnostics = [.error .io s!"cannot open source file: {e.message}" (.file path)] ∧
      r.instructions = []
  unlexed : ∀ source e, files path = .ok source → tokenize budget path source = .error e →
    r.diagnostics = [e.diagnostic] ∧ r.instructions = []
  unparsed : ∀ source ts e, files path = .ok source → tokenize budget path source = .ok ts →
    parse Grammar.table ts = .error e → r.diagnostics = [e.diagnostic] ∧ r.instructions = []
  skipped : a.valid = false ∨ checkOnly = true → r.instructions = []
  lowered : a.valid = true → checkOnly = false → ∀ source ts t, files path = .ok source →
    tokenize budget path source = .ok ts → parse Grammar.table ts = .ok t →
      t.emit Phase.table a.symbols = .ok r.instructions

/-- The tree of the file at a path, if it opens, lexes and parses. -/
def Tree.ofFile? (files : OpenFile) (budget : Budget) (path : String) : Option Tree :=
  match files path with
  | .error _ => none
  | .ok source =>
    match tokenize budget path source with
    | .error _ => none
    | .ok ts =>
      match parse Grammar.table ts with
      | .error _ => none
      | .ok t => some t

section ParseFile

variable (table : TransitionTable) {files : OpenFile} {path : String} {budget : Budget}
  {source : Source} {ts : List Token}

theorem parseFile_of_unopened (budget : Budget) {e : FileError} (h : files path = .error e) :
    parseFile table files path budget =
      .error (.error .io s!"cannot open source file: {e.message}" (.file path)) := by
  rw [parseFile, h]
  rfl

theorem parseFile_of_unlexed {e : LexError} (h : files path = .ok source)
    (hl : tokenize budget path source = .error e) :
    parseFile table files path budget = .error e.diagnostic := by
  rw [parseFile, h]
  simp only [bind, Except.bind, Except.mapError, hl]

variable {table}

theorem parseFile_of_unparsed {e : SyntaxError} (h : files path = .ok source)
    (hl : tokenize budget path source = .ok ts) (hp : parse table ts = .error e) :
    parseFile table files path budget = .error e.diagnostic := by
  rw [parseFile, h]
  simp only [bind, Except.bind, Except.mapError, hl, hp]

theorem parseFile_of_parsed {t : Tree} (h : files path = .ok source)
    (hl : tokenize budget path source = .ok ts) (hp : parse table ts = .ok t) :
    parseFile table files path budget = .ok ⟨t, ts.length⟩ := by
  rw [parseFile, h]
  simp only [bind, Except.bind, Except.mapError, hl, hp]
  rfl

theorem toOption_parseFile (files : OpenFile) (path : String) (budget : Budget) :
    (parseFile Grammar.table files path budget).toOption.map (·.tree) =
      Tree.ofFile? files budget path := by
  unfold Tree.ofFile?
  split
  · next e h =>
    rw [parseFile_of_unopened Grammar.table budget h]
    rfl
  · next source h =>
    split
    · next e hl =>
      rw [parseFile_of_unlexed Grammar.table h hl]
      rfl
    · next ts hl =>
      split
      · next e hp =>
        rw [parseFile_of_unparsed h hl hp]
        rfl
      · next t hp =>
        rw [parseFile_of_parsed h hl hp]
        rfl

theorem Tree.exists_of_ofFile? {t : Tree} (h : Tree.ofFile? files budget path = some t) :
    ∃ source ts, files path = .ok source ∧ tokenize budget path source = .ok ts ∧
      parse Grammar.table ts = .ok t := by
  unfold Tree.ofFile? at h
  split at h
  · cases h
  · next source hs =>
    split at h
    · cases h
    · next ts hl =>
      split at h
      · cases h
      · next t' hp =>
        cases h
        exact ⟨source, ts, hs, hl, hp⟩

end ParseFile

theorem LexError.inFile_diagnostic (e : LexError) (label : String) :
    e.diagnostic.inFile label = e.diagnostic := rfl

theorem SyntaxError.inFile_diagnostic (e : SyntaxError) (label : String) :
    e.diagnostic.inFile label = e.diagnostic := by
  cases e <;> rfl

/-- A report answers for a path if it does so for what opening, lexing and parsing give. -/
theorem FileReport.answers_of_parseFile {r : FileReport} {files : OpenFile} {budget : Budget}
    {path : String} {a : Analysis} {checkOnly : Bool} (hfile : r.file = path)
    (hfailed : ∀ d, parseFile Grammar.table files path budget = .error d →
      r.diagnostics = [d.inFile path])
    (hcode : CodeFits Phase.table (parseFile Grammar.table files path budget) a checkOnly
      r.instructions) : r.Answers files budget path a checkOnly where
  file := hfile
  unopened e he := by
    have hparse := parseFile_of_unopened Grammar.table budget he
    exact ⟨hfailed _ hparse, hcode.failed _ hparse⟩
  unlexed source e hs hl := by
    have hparse := parseFile_of_unlexed Grammar.table hs hl
    rw [← e.inFile_diagnostic path]
    exact ⟨hfailed _ hparse, hcode.failed _ hparse⟩
  unparsed source ts e hs hl hp := by
    have hparse := parseFile_of_unparsed hs hl hp
    rw [← e.inFile_diagnostic path]
    exact ⟨hfailed _ hparse, hcode.failed _ hparse⟩
  skipped := hcode.skipped
  lowered hv hc source ts t hs hl hp := hcode.lowered hv hc _ (parseFile_of_parsed hs hl hp)

/-- A file that parses was lexed under its path. -/
theorem parseFile_eq_ok {table : TransitionTable} {files : OpenFile} {path : String}
    {budget : Budget} {parsed : Parsed} (h : parseFile table files path budget = .ok parsed) :
    ∃ s ts, tokenize budget path s = .ok ts ∧ parse table ts = .ok parsed.tree := by
  rw [parseFile] at h
  obtain ⟨source, -, h⟩ := bind_eq_ok.mp h
  obtain ⟨ts, hl, h⟩ := bind_eq_ok.mp h
  obtain ⟨tree, hp, h⟩ := bind_eq_ok.mp h
  cases h
  exact ⟨source, ts, mapError_eq_ok.mp hl, mapError_eq_ok.mp hp⟩

theorem parseFile_ok {files : OpenFile} {path : String} {budget : Budget} {parsed : Parsed}
    (h : parseFile Grammar.table files path budget = .ok parsed) : parsed.tree.FromSource := by
  obtain ⟨s, ts, hl, hp⟩ := parseFile_eq_ok h
  exact ⟨budget, path, s, ts, hl, hp⟩

theorem Diagnostic.sort_singleton (d : Diagnostic) : sort [d] = [d] := by
  simp [sort]

/-- Faults belong to files that have a tree. -/
theorem Analysis.found_of_none {outcomes : List (Option Tree)} {i : Nat}
    (h : outcomes[i]? = some none) : (ofOutcomes outcomes).faultsByFile.getD i [] = [] := by
  rw [faultsByFile, getD_group, List.map_eq_nil_iff, List.filter_eq_nil_iff]
  intro f hf
  have hmem := (placed_ofFiles (parsedFiles outcomes) f hf).2
  obtain ⟨x, hx, hxi⟩ := List.mem_map.mp hmem
  obtain ⟨⟨o, j⟩, hm, ho⟩ := List.mem_filterMap.mp hx
  obtain ⟨t, rfl, rfl⟩ := Option.map_eq_some_iff.mp ho
  have hj := List.mem_zipIdx_iff_getElem?.mp hm
  rw [beq_iff_eq]
  intro hi
  have hji : j = i := hxi.trans hi
  rw [hji, h] at hj
  cases hj

namespace Compiler

variable (c : Compiler) (files : OpenFile)

def result (path : String) : Except Diagnostic Parsed :=
  parseFile c.tables.transition files path c.budget

/-- What becomes of one path. -/
def outcome (path : String) : FileOutcome :=
  ⟨path, (c.result files path).mapError (·.inFile path)⟩

theorem parseAll_eq (paths : List String) : (c.parseAll files paths).1 = paths.map (c.outcome files) := by
  simp only [parseAll, runTasks, List.map_map, Function.comp_def, Attempt.result_ofExcept]
  induction paths with
  | nil => rfl
  | cons path paths ih =>
    rw [List.map_cons, List.zip_cons_cons, List.map_cons, List.map_cons, ih]
    rfl

theorem tree?_outcome (path : String) :
    (c.outcome files path).tree? = (c.result files path).toOption.map (·.tree) := by
  unfold outcome FileOutcome.tree?
  cases c.result files path <;> rfl

/-- The analysis of the files that parse. -/
def analysis (paths : List String) : Analysis :=
  .ofOutcomes (paths.map fun path => (c.result files path).toOption.map (·.tree))

theorem analysis_of_built (ht : c.tables.transition = Grammar.table) (paths : List String) :
    c.analysis files paths = .ofOutcomes (paths.map (Tree.ofFile? files c.budget)) := by
  have htrees (path : String) : (c.result files path).toOption.map (·.tree) =
      Tree.ofFile? files c.budget path := by
    rw [result, ht, toOption_parseFile]
  simp only [analysis, htrees]

theorem analysis_eq (paths : List String) :
    Analysis.ofOutcomes ((paths.map (c.outcome files)).map (·.tree?)) = c.analysis files paths := by
  rw [List.map_map, analysis]
  exact congrArg _ (List.map_congr_left fun path _ => c.tree?_outcome files path)

/-- The code of a batch, file by file. -/
def codes (paths : List String) : Except CodeError (List (List Instruction)) :=
  if (c.analysis files paths).valid && !c.config.checkOnly then
    c.codeOf (c.analysis files paths) (paths.map (c.outcome files))
  else .ok ((paths.map (c.outcome files)).map fun _ => [])

/-- Code for every tree is code for every file. -/
theorem codes_fit {paths : List String}
    (hemit : (c.analysis files paths).valid = true → ∀ path ∈ paths, ∀ parsed,
      c.result files path = .ok parsed →
        ∃ code, parsed.tree.emit c.tables.generation (c.analysis files paths).symbols = .ok code) :
    ∃ codes, c.codes files paths = .ok codes ∧
      List.Forall₂ (fun path code => CodeFits c.tables.generation (c.result files path)
        (c.analysis files paths) c.config.checkOnly code) paths codes := by
  unfold codes
  generalize c.analysis files paths = a at hemit ⊢
  cases hb : a.valid && !c.config.checkOnly with
  | false =>
    refine ⟨_, if_neg Bool.false_ne_true, ?_⟩
    rw [List.map_map, List.forall₂_map_right_iff, List.forall₂_same]
    refine fun path _ => ⟨fun _ _ => rfl, fun _ => rfl, fun hv hc => ?_⟩
    simp [hv, hc] at hb
  | true =>
    rw [Bool.and_eq_true, Bool.not_eq_true'] at hb
    obtain ⟨hv, hc⟩ := hb
    obtain ⟨codes, hcodes⟩ : ∃ codes, c.codeOf a (paths.map (c.outcome files)) = .ok codes := by
      refine mapM_ok fun o ho => ?_
      obtain ⟨path, hp, rfl⟩ := List.mem_map.mp ho
      rw [tree?_outcome]
      cases hr : c.result files path with
      | error d => exact ⟨[], rfl⟩
      | ok parsed => exact hemit hv path hp parsed hr
    refine ⟨codes, (if_pos rfl).trans hcodes, ?_⟩
    refine (List.forall₂_map_left_iff.mp (forall₂_of_mapM hcodes)).imp fun path code h => ?_
    rw [tree?_outcome] at h
    refine ⟨fun d hd => ?_, fun hs => ?_, fun _ _ parsed hp => ?_⟩
    · rw [hd] at h
      exact (Except.ok.inj h).symm
    · simp [hv, hc] at hs
    · rw [hp] at h
      exact h

/-- The reports of a batch: every path with its faults and its code. -/
theorem reports_eq (paths : List String) :
    (c.compile files paths).map (·.1.reports) = (c.codes files paths).map fun codes =>
      (paths.zipIdx.zip codes).map fun ((path, i), code) =>
        { c.report (c.outcome files path) ((c.analysis files paths).faultsByFile.getD i []) with
          instructions := code } := by
  obtain ⟨outcomes, log, hall⟩ : ∃ outcomes log, c.parseAll files paths = (outcomes, log) :=
    ⟨_, _, rfl⟩
  have houtcomes : outcomes = paths.map (c.outcome files) := by
    rw [← c.parseAll_eq files paths, hall]
  subst houtcomes
  simp only [compile, hall, analysis_eq]
  -- The rest of the batch stands in both branches.
  unfold Compiler.codes
  cases (c.analysis files paths).valid && !c.config.checkOnly
  all_goals
    simp only [if_true, Bool.false_eq_true, if_false]
    simp only [List.zipIdx_map, List.zip_map_left, List.map_map]
  · rfl
  · cases c.codeOf (c.analysis files paths) (paths.map (c.outcome files)) <;> rfl

/-- With code for every file, every path is reported with its faults and its code. -/
theorem compile_eq {paths : List String} {codes : List (List Instruction)}
    (hcode : c.codes files paths = .ok codes) :
    ∃ out log, c.compile files paths = .ok (out, log) ∧
      out.reports = (paths.zipIdx.zip codes).map fun ((path, i), code) =>
        { c.report (c.outcome files path) ((c.analysis files paths).faultsByFile.getD i []) with
          instructions := code } := by
  have hreports := c.reports_eq files paths
  rw [hcode] at hreports
  obtain ⟨⟨out, log⟩, hcompile, hout⟩ := map_eq_ok.mp hreports
  exact ⟨out, log, hcompile, hout⟩

/-- A file that fails is reported with that problem only: the analysis finds none in it. -/
theorem diagnostics_of_error {paths : List String} {i : Nat} {path : String}
    (hp : paths[i]? = some path) {d : Diagnostic} (hd : c.result files path = .error d) :
    (c.report (c.outcome files path)
      ((c.analysis files paths).faultsByFile.getD i [])).diagnostics = [d.inFile path] := by
  have hnone : (paths.map fun path => (c.result files path).toOption.map (·.tree))[i]? =
      some none := by
    rw [List.getElem?_map, hp, Option.map_some, hd]
    rfl
  have hfound : (c.analysis files paths).faultsByFile.getD i [] = [] :=
    Analysis.found_of_none hnone
  simp only [report, faultsOf, outcome, hd, hfound, Except.mapError, List.append_nil,
    Diagnostic.sort_singleton]

theorem fromSource {paths : List String} {t : Tree} (ht : c.tables.transition = Grammar.table)
    (h : some t ∈ paths.map fun path => (c.result files path).toOption.map (·.tree)) :
    t.FromSource := by
  obtain ⟨path, -, hp⟩ := List.mem_map.mp h
  cases hr : c.result files path with
  | error d => simp [hr, Except.toOption] at hp
  | ok parsed =>
    simp only [hr, Except.toOption, Option.map_some, Option.some.injEq] at hp
    rw [result, ht] at hr
    exact hp ▸ parseFile_ok hr

end Compiler

/-- Compiling gives one report for each path in order. A file that fails has its one problem and no
code; with a problem in the analysis no file has code; otherwise every tree has code and its report
carries that code. Code generation succeeds on the trees of any batch with a valid analysis. -/
theorem compile_reports (config : Config) (cancelled : Bool) (files : OpenFile)
    (paths : List String) :
    let c : Compiler := ⟨config, .built, cancelled⟩
    let analysis := Analysis.ofOutcomes (paths.map (Tree.ofFile? files c.budget))
    (∃ out log, c.compile files paths = .ok (out, log) ∧
      List.Forall₂ (fun path r => r.Answers files c.budget path analysis config.checkOnly)
        paths out.reports) ∧
    ∀ outcomes : List (Option Tree), (∀ t, some t ∈ outcomes → t.FromSource) →
      (Analysis.ofOutcomes outcomes).valid = true → ∀ t, some t ∈ outcomes →
        ∃ code, t.emit Phase.table (Analysis.ofOutcomes outcomes).symbols = .ok code := by
  intro c analysis
  refine ⟨?_, fun outcomes h hv t ht => Analysis.emit_ok h hv ht⟩
  have hemit : (c.analysis files paths).valid = true → ∀ path ∈ paths, ∀ parsed,
      c.result files path = .ok parsed →
        ∃ code, parsed.tree.emit Phase.table (c.analysis files paths).symbols = .ok code := by
    intro hv path hp parsed hr
    refine Analysis.emit_ok (fun t => c.fromSource files rfl) hv (List.mem_map.mpr ⟨path, hp, ?_⟩)
    rw [hr]
    rfl
  obtain ⟨codes, hcodes, hfits⟩ := c.codes_fit files hemit
  obtain ⟨out, log, hcompile, hreports⟩ := c.compile_eq files hcodes
  have hanalysis : analysis = c.analysis files paths := (c.analysis_of_built files rfl paths).symm
  refine ⟨out, log, hcompile, ?_⟩
  rw [hreports, hanalysis]
  refine forall₂_zipIdx hfits 0 fun i path code hp h => ?_
  refine FileReport.answers_of_parseFile rfl (fun d hd => ?_) h
  rw [Nat.zero_add]
  exact c.diagnostics_of_error files hp hd

/-- One file is missing, one has a character that starts no token, one lacks a colon, and one is
right. -/
theorem compile_reports_failures_beside_code :
    let files : OpenFile := fun path =>
      if path = "b" then .ok (.ofBytes "var x: int = 1 ? 2;".toUTF8.toList)
      else if path = "c" then .ok (.ofBytes "var x int;".toUTF8.toList)
      else if path = "d" then .ok (.ofBytes "func f(): int { return 1 + 2; }".toUTF8.toList)
      else .error .notFound
    let c : Compiler := ⟨⟨1, none, none, false, false, false, false⟩, .built, false⟩
    ∃ out log ra rb rc rd, c.compile files ["a", "b", "c", "d"] = .ok (out, log) ∧
      out.reports = [ra, rb, rc, rd] ∧
      ra.diagnostics = [.error .io
        "cannot open source file: No such file or directory (os error 2)" (.file "a")] ∧
      ra.instructions = [] ∧
      rb.diagnostics = [.error .lexical "illegal character '?'" (.site ⟨"b", 1, 16⟩)] ∧
      rb.instructions = [] ∧
      rc.diagnostics = [.error .parsing "unexpected `int`, expected `:`" (.site ⟨"c", 1, 7⟩)] ∧
      rc.instructions = [] ∧
      rd.instructions = [.func (.name "f") 0, .binary .add (.temp 0) (.int 1) (.int 2),
        .ret (.temp 0), .endFunc (.name "f")] := by
  intro files c
  obtain ⟨⟨out, log, hcompile, hreports⟩, -⟩ :=
    compile_reports c.config c.cancelled files ["a", "b", "c", "d"]
  obtain ⟨ra, _, ha, hfromb, hout⟩ := List.forall₂_cons_left_iff.mp hreports
  obtain ⟨rb, _, hb, hfromc, rfl⟩ := List.forall₂_cons_left_iff.mp hfromb
  obtain ⟨rc, _, hc, hfromd, rfl⟩ := List.forall₂_cons_left_iff.mp hfromc
  obtain ⟨rd, _, hd, hnone, rfl⟩ := List.forall₂_cons_left_iff.mp hfromd
  obtain rfl := List.forall₂_nil_left_iff.mp hnone
  have hlex : tokenize c.budget "b" (.ofBytes "var x: int = 1 ? 2;".toUTF8.toList) =
      .error ⟨.illegalCharacter '?', ⟨"b", 1, 16⟩⟩ := by decide +kernel
  have hparse : ((tokenize c.budget "c" (.ofBytes "var x int;".toUTF8.toList)).toOption.map
      fun ts => (parse Grammar.table ts).map fun _ => ()) =
      some (.error (.unexpected ⟨"c", 1, 7⟩ .intWord [.colon])) := by decide +kernel
  have hcode : ((Tree.ofFile? files c.budget "d").bind fun t =>
      (t.emit Phase.table (Analysis.ofOutcomes (["a", "b", "c", "d"].map
        (Tree.ofFile? files c.budget))).symbols).toOption) =
      some [.func (.name "f") 0, .binary .add (.temp 0) (.int 1) (.int 2), .ret (.temp 0),
        .endFunc (.name "f")] := by decide +kernel
  have hvalid : (Analysis.ofOutcomes (["a", "b", "c", "d"].map
      (Tree.ofFile? files c.budget))).valid = true := by decide +kernel
  obtain ⟨tsc, htsc, hparse⟩ := Option.map_eq_some_iff.mp hparse
  obtain ⟨t, ht, hcode⟩ := Option.bind_eq_some_iff.mp hcode
  obtain ⟨source, ts, hs, hl, hp⟩ := Tree.exists_of_ofFile? ht
  have hra := ha.unopened .notFound (by simp [files])
  have hrb := hb.unlexed _ _ (by simp [files]) hlex
  have hrc := hc.unparsed _ _ _ (by simp [files]) (toOption_eq_some.mp htsc)
    (map_eq_error.mp hparse)
  have hrd := hd.lowered hvalid rfl source ts t hs hl hp
  rw [toOption_eq_some.mp hcode] at hrd
  refine ⟨out, log, ra, rb, rc, rd, hcompile, hout, hra.1, hra.2, hrb.1.trans ?_, hrb.2,
    hrc.1.trans ?_, hrc.2, (Except.ok.inj hrd).symm⟩
  · decide +kernel
  · decide +kernel

end ThreeAddress
