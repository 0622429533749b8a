import ThreeAddress.Proofs.Delivery
import ThreeAddress.Proofs.Redeclaration

namespace ThreeAddress

namespace Merged

/-- Declarations that a table has already bring nothing but complaints. -/
theorem again_of_taken (i : Nat) {t : SymbolTable} {ds : List Declaration}
    (h : ∀ d ∈ ds, t.get? d.key = some d.symbol) :
    enrolled t ds = t ∧ admitted t ds = [] ∧
      again i t ds = ds.map fun d => ⟨i, duplicate d.site d.site.site⟩ := by
  induction ds with
  | nil => exact ⟨rfl, rfl, rfl⟩
  | cons d ds ih =>
    obtain ⟨hd, hds⟩ := List.forall_mem_cons.mp h
    obtain ⟨henrolled, hadmitted, hagain⟩ := ih hds
    have hsame : t.declareNew d.symbol = t := SymbolTable.declareNew_of_some hd
    refine ⟨?_, ?_, ?_⟩
    · rw [enrolled, List.foldl_cons, hsame]
      exact henrolled
    · rw [admitted, hd, hsame]
      exact hadmitted
    · rw [again, hd, hsame, hagain]
      rfl

end Merged

namespace Decl

theorem map_site_declarations (d : Decl) : d.declarations.map (·.site) = d.marks := by
  rw [d.declarations_eq, List.map_cons, d.site_head, Merged.tail_declarations, List.map_map,
    marks, ← Merged.map_zipIdx_params]
  rfl

/-- With its own symbol in the table a declaration takes part. -/
theorem counts_of_taken {d : Decl} {t : SymbolTable}
    (h : t.get? d.head.key = some d.head.symbol) :
    ∀ e ∈ d.declarations, Merged.counts t e = true := by
  intro e he
  rw [d.declarations_eq] at he
  rcases List.mem_cons.mp he with rfl | he
  · exact d.counts_head t
  · rw [counts_tail t he, ← d.key_head, h]
    obtain ⟨r, q, slot, rfl, -, -⟩ := param_of_mem_tail he
    simp [head, Declaration.symbol, Symbol.isFunctionAt, Symbol.declared, Declaration.kind,
      Declaration.site, name]

end Decl

/-- A program in a file of a number. -/
abbrev Program.inFile (p : Program) (i : Nat) : Located := p.map (i, ·)

namespace Program

variable (p : Program)

theorem findings_inFile (i : Nat) :
    (p.inFile i).findings = (p.flatMap Decl.declarations).map (i, Finding.declared ·) := by
  simp [Located.findings, Program.inFile, List.flatMap_map, List.map_flatMap]

theorem declarations_inFile (i : Nat) :
    (p.inFile i).declarations = p.flatMap Decl.declarations := by
  simp [Located.declarations, Program.inFile, List.flatMap_map]

/-- What is declared and then declared again: the table and the accepted declarations of the first
copy, and complaints about all declarations of the second. -/
theorem merge_twice (i j : Nat) (hf : Merged.Fresh .empty (p.flatMap Decl.declarations)) :
    Merged.merge .empty ((p.inFile i).findings ++ (p.inFile j).findings) =
      ⟨(p.inFile i).merged.symbols, (p.inFile i).merged.accepted,
        (p.flatMap Decl.marks).map fun u => ⟨j, duplicate u u.site⟩⟩ := by
  let t := Merged.enrolled .empty (p.flatMap Decl.declarations)
  have htaken : ∀ e ∈ p.flatMap Decl.declarations, t.get? e.key = some e.symbol := fun e he =>
    Merged.get?_enrolled hf he
  have hcounts : ∀ e ∈ p.flatMap Decl.declarations, Merged.counts t e = true := by
    intro e he
    obtain ⟨d, hd, he⟩ := List.mem_flatMap.mp he
    exact Decl.counts_of_taken (htaken _ (List.mem_flatMap.mpr ⟨d, hd, d.head_mem⟩)) e he
  obtain ⟨henrolled, hadmitted, hagain⟩ := Merged.again_of_taken j htaken
  have hmarks : (p.flatMap Decl.declarations).map (·.site) = p.flatMap Decl.marks := by
    rw [List.map_flatMap]
    exact congrArg (p.flatMap ·) (funext Decl.map_site_declarations)
  have hsecond := Merged.merge_of_counts j [] hcounts
  have hfirst := Merged.merge_findings_append (p.inFile j).findings
    ((p.declarations_inFile i).symm ▸ hf)
  rw [List.append_nil, henrolled, hadmitted, hagain] at hsecond
  rw [hfirst, declarations_inFile, findings_inFile p j, hsecond, ← hmarks, List.map_map]
  simp [Merged.merge, Located.merged, declarations_inFile, t, Function.comp_def]

end Program

namespace ReadFile

theorem located_singleton (f : ReadFile) : located [f] = f.program.inFile f.origin :=
  List.append_nil _

/-- A file without faults, and once more under another number: the second copy has a complaint about
every name that it declares, and nothing else is wrong. -/
theorem faults_twice (f : ReadFile) (j : Nat) (h : (Analysis.ofFiles [f.numbered]).faults = []) :
    (Analysis.ofFiles [f.numbered, (j, f.tree)]).faults =
      (f.program.flatMap Decl.marks).map fun u => ⟨j, duplicate u u.site⟩ := by
  let copy : ReadFile := { f with origin := j }
  let m := Merged.ofFiles [f.numbered]
  let complaints : List Fault := (f.program.flatMap Decl.marks).map fun u => ⟨j, duplicate u u.site⟩
  have hone := faults_eq [f]
  rw [List.map_singleton, h] at hone
  obtain ⟨hfront, hbodies⟩ := List.append_eq_nil_iff.mp hone.symm
  obtain ⟨hmerged, hresolved⟩ := List.append_eq_nil_iff.mp hfront
  have hfresh : Merged.Fresh .empty (f.program.inFile f.origin).declarations := by
    rw [← located_singleton]
    exact fresh_of_no_faults hmerged
  have halone : m = (f.program.inFile f.origin).merged := by
    have hm : m = Merged.merge .empty (located [f]).findings := merged_eq [f]
    rw [hm, located_singleton, Merged.merge_findings hfresh]
    rfl
  have htwice : Merged.ofFiles ([f, copy].map numbered) = ⟨m.symbols, m.accepted, complaints⟩ := by
    have hfindings : (located [f, copy]).findings =
        (f.program.inFile f.origin).findings ++ (f.program.inFile j).findings := by
      simp [located, Located.findings, copy]
    rw [merged_eq, hfindings, halone]
    exact f.program.merge_twice f.origin j (f.program.declarations_inFile f.origin ▸ hfresh)
  have hchecked : bodyFaults m.typedSymbols [f, copy] = [] := by
    rw [bodyFaults_eq_nil_iff] at hbodies ⊢
    intro g hg
    rcases List.mem_pair.mp hg with rfl | rfl
    · exact hbodies g List.mem_cons_self
    · exact hbodies f List.mem_cons_self
  -- Types and bodies depend on the table and on what is accepted, as they are with the file alone.
  have htwo := faults_eq [f, copy]
  rw [htwice] at htwo
  calc (Analysis.ofFiles ([f, copy].map numbered)).faults
      = complaints ++ m.resolved.flatMap (·.2) ++ bodyFaults m.typedSymbols [f, copy] := htwo
    _ = complaints := by rw [hresolved, hchecked, List.append_nil, List.append_nil]

/-- Nothing is found in the first of the two copies. -/
theorem found_twice (f : ReadFile) {j : Nat} (hj : j ≠ f.origin)
    (h : (Analysis.ofFiles [f.numbered]).faults = []) :
    (Analysis.ofFiles [f.numbered, (j, f.tree)]).found f.origin = [] ∧
      (Analysis.ofFiles [f.numbered, (j, f.tree)]).found j =
        (f.program.flatMap Decl.marks).map fun u => duplicate u u.site := by
  constructor
  · rw [Analysis.found, f.faults_twice j h, List.map_eq_nil_iff, List.filter_map,
      List.map_eq_nil_iff]
    exact List.filter_eq_nil_iff.mpr fun u _ => by simpa using hj
  · rw [Analysis.found, f.faults_twice j h, List.filter_map, List.map_map]
    exact congrArg _ (List.filter_eq_self.mpr fun u _ => by simp)

end ReadFile

/-- Diagnostics that stand one behind the other are in order already. -/
theorem Diagnostic.Reorders.eq_of_increasing {ds es : List Diagnostic} (h : Reorders ds es)
    (hds : ds.Pairwise fun d e => PlaceLe d.position e.position ∧ d.position ≠ e.position) :
    es = ds := by
  refine h.perm.eq_of_pairwise (fun d e hd he hle hge => ?_) h.ordered (hds.imp And.left)
  have hsame : d.position = e.position := by
    unfold PlaceLe at hle hge
    exact Prod.ext (by omega) (by omega)
  have hinj : (ds.map (·.position)).Nodup := List.pairwise_map.mpr (hds.imp And.right)
  exact List.inj_on_of_nodup_map hinj (h.perm.mem_iff.mp hd) he hsame

/-- Complaints about all names that a file declares stand one behind the other. -/
theorem Tree.FromSource.duplicates_increasing {t : Tree} (h : t.FromSource) {p : Program}
    (hp : t.program = .ok p) :
    ((p.flatMap Decl.marks).map fun u => duplicate u u.site).Pairwise
      fun d e => Diagnostic.PlaceLe d.position e.position ∧ d.position ≠ e.position := by
  obtain ⟨-, hbefore⟩ := h.marks hp
  refine List.pairwise_map.mpr (hbefore.imp fun {u v} huv => ?_)
  have hposition (u : Token) : (duplicate u u.site).position = (u.site.line, u.site.column) := rfl
  rw [hposition, hposition, Diagnostic.PlaceLe, Ne, Prod.mk.injEq]
  unfold Site.Before at huv
  omega

namespace Compiler

/-- A batch of two paths has a report for each of them. -/
theorem collects_pair {c : Compiler} {files : OpenFile} {path path' : String} {out : BatchOutput}
    {log : List LogLine} (h : c.compile files [path, path'] = .ok (out, log)) :
    ∃ first second, out.reports = [first, second] ∧
      first.Collects (c.outcome files path) ((c.analysis files [path, path']).found 0) ∧
      second.Collects (c.outcome files path') ((c.analysis files [path, path']).found 1) := by
  have hreports := c.reports_eq_mapM files [path, path']
  rw [h] at hreports
  have hmade := forall₂_of_mapM hreports.symm
  obtain ⟨first, later, hone, hlater, hout⟩ := List.forall₂_cons_left_iff.mp hmade
  obtain ⟨second, rest, htwo, hrest, rfl⟩ := List.forall₂_cons_left_iff.mp hlater
  obtain rfl := List.forall₂_nil_left_iff.mp hrest
  exact ⟨first, second, hout, c.collects_fileReport files (i := 0) rfl hone,
    c.collects_fileReport files (i := 1) rfl htwo⟩

/-- The reports of a path that is named twice. -/
theorem reports_twice {c : Compiler} {files : OpenFile} {path : String} {parsed : Parsed}
    (htables : c.tables = .built) (hr : c.result files path = .ok parsed)
    (h : (Analysis.ofOutcomes [some parsed.tree]).faults = []) :
    ∃ p out log first second, parsed.tree.program = .ok p ∧
      c.compile files [path, path] = .ok (out, log) ∧ out.reports = [first, second] ∧
      first.diagnostics = [] ∧
      second.diagnostics = (p.flatMap Decl.marks).map fun u => duplicate u u.site := by
  have hparse : parseFile Grammar.table files path c.budget = .ok parsed := by
    have htable : Grammar.table = c.tables.transition := by rw [htables]; rfl
    rw [htable]
    exact hr
  have hsource : parsed.tree.FromSource := parseFile_ok hparse
  have hfiles : ∀ x ∈ [(0, parsed.tree)], x.2.FromSource := List.forall_mem_singleton.mpr hsource
  obtain ⟨b, hb⟩ := ReadFile.exists_readFiles hfiles
  obtain ⟨f, rfl, hf⟩ := List.map_eq_singleton_iff.mp hb
  obtain ⟨horigin, htree⟩ := Prod.mk.inj hf
  have hanalysis : c.analysis files [path, path] = Analysis.ofFiles [f.numbered, (1, f.tree)] := by
    have hboth : c.analysis files [path, path] =
        Analysis.ofOutcomes [some parsed.tree, some parsed.tree] := by
      rw [analysis, List.map_cons, List.map_singleton, hr]
      rfl
    rw [hboth, hf, htree]
    rfl
  obtain ⟨hfirst, hsecond⟩ := f.found_twice (horigin ▸ Nat.one_ne_zero) (hf ▸ h)
  rw [← hanalysis, horigin] at hfirst
  rw [← hanalysis] at hsecond
  have hready : c.tables = .built ∨ (c.analysis files [path, path]).faults ≠ [] := .inl htables
  obtain ⟨out, log, hcompile⟩ := c.exists_compile files hready
  obtain ⟨first, second, hout, ⟨-, hone⟩, ⟨-, htwo⟩⟩ := collects_pair hcompile
  have hok : (c.outcome files path).result = .ok parsed := by
    rw [outcome, hr]
    rfl
  rw [hok] at hone htwo
  refine ⟨f.program, out, log, first, second, htree ▸ f.read, hcompile, hout, ?_, ?_⟩
  · exact List.perm_nil.mp (hfirst ▸ hone.perm)
  · exact (hsecond ▸ htwo).eq_of_increasing (hsource.duplicates_increasing (htree ▸ f.read))

end Compiler

namespace Program

theorem length_le_marks (p : Program) : p.length ≤ (p.flatMap Decl.marks).length := by
  induction p with
  | nil => exact Nat.le_refl 0
  | cons d p ih =>
    rw [List.flatMap_cons, List.length_append, List.length_cons, Decl.marks, List.length_cons]
    omega

/-- The names that a program declares are as many as its declarations only if there are no
parameters. -/
theorem length_marks_eq_iff (p : Program) :
    (p.flatMap Decl.marks).length = p.length ↔ ∀ d ∈ p, d.params = [] := by
  induction p with
  | nil => exact ⟨fun _ => List.forall_mem_nil _, fun _ => rfl⟩
  | cons d p ih =>
    have hle := length_le_marks p
    rw [List.forall_mem_cons, ← ih, ← List.length_eq_zero_iff, List.flatMap_cons,
      List.length_append, List.length_cons, Decl.marks, List.length_cons, List.length_map]
    omega

theorem marks_of_no_params {p : Program} (h : ∀ d ∈ p, d.params = []) :
    p.flatMap Decl.marks = p.map (·.name) := by
  rw [List.map_eq_flatMap]
  refine List.flatMap_congr fun d hd => ?_
  rw [Decl.marks, h d hd, List.map_nil]

/-- Complaints about all names are those about the declarations only if there are no parameters. -/
theorem complaints_eq_iff (p : Program) :
    ((p.flatMap Decl.marks).map fun u => duplicate u u.site) =
        p.map (fun d => duplicate d.name d.name.site) ↔ ∀ d ∈ p, d.params = [] := by
  constructor
  · intro h
    have hlength := congrArg List.length h
    rw [List.length_map, List.length_map] at hlength
    exact p.length_marks_eq_iff.mp hlength
  · intro h
    rw [marks_of_no_params h, List.map_map]
    rfl

end Program

/-- A path is named twice and its file has no faults alone. The first report has no diagnostics. The
second one has a complaint about every declaration and about every parameter, at the name and in
order, each with the same place as that of the first; there is one complaint for each declaration
exactly when no function of the file has parameters. -/
theorem second_copy_complains_about_parameters (config : Config) (cancelled : Bool)
    (files : OpenFile) (path : String) (parsed : Parsed) :
    let c : Compiler := ⟨config, .built, cancelled⟩
    parseFile Grammar.table files path c.budget = .ok parsed →
    (Analysis.ofOutcomes [some parsed.tree]).faults = [] →
    ∃ p out log first second, parsed.tree.program = .ok p ∧
      c.compile files [path, path] = .ok (out, log) ∧ out.reports = [first, second] ∧
      first.diagnostics = [] ∧
      second.diagnostics = (p.flatMap Decl.marks).map (fun u => duplicate u u.site) ∧
      (second.diagnostics = p.map (fun d => duplicate d.name d.name.site) ↔
        ∀ d ∈ p, d.params = []) := by
  intro c hparse halone
  obtain ⟨p, out, log, first, second, hp, hcompile, hreports, hfirst, hsecond⟩ :=
    Compiler.reports_twice (c := c) rfl hparse halone
  refine ⟨p, out, log, first, second, hp, hcompile, hreports, hfirst, hsecond, ?_⟩
  rw [hsecond]
  exact p.complaints_eq_iff

/-- A file that is parsed and has no faults, if both can be computed. -/
theorem exists_parsed (files : OpenFile) (path : String) (budget : Budget)
    (h : ((parseFile Grammar.table files path budget).toOption.map fun parsed =>
      (Analysis.ofOutcomes [some parsed.tree]).valid) = some true) :
    ∃ parsed, parseFile Grammar.table files path budget = .ok parsed ∧
      (Analysis.ofOutcomes [some parsed.tree]).faults = [] := by
  obtain ⟨parsed, hparsed, hvalid⟩ := Option.map_eq_some_iff.mp h
  refine ⟨parsed, ?_, (Analysis.valid_iff_no_faults _).mp hvalid⟩
  cases hresult : parseFile Grammar.table files path budget with
  | error d =>
    rw [hresult] at hparsed
    cases hparsed
  | ok other =>
    rw [hresult] at hparsed
    exact congrArg _ (Option.some.inj hparsed)

/-- A variable, a type and a function with two parameters and a local: five complaints. -/
theorem second_copy_complains_about_parameters_of_one_function :
    let c : Compiler := ⟨.default, .built, false⟩
    let text :=
      "var g: n = 2;\ntype n = int;\nfunc f(x: n, y: int): n { var z: n = x; return z + y; }"
    let files : OpenFile := fun _ => .ok (.ofBytes text.toUTF8.toList)
    ∃ parsed p out log first second,
      parseFile Grammar.table files "a" c.budget = .ok parsed ∧
      (Analysis.ofOutcomes [some parsed.tree]).faults = [] ∧ parsed.tree.program = .ok p ∧
      c.compile files ["a", "a"] = .ok (out, log) ∧ out.reports = [first, second] ∧
      first.diagnostics = [] ∧
      second.diagnostics.map (·.position) = [(1, 5), (2, 6), (3, 6), (3, 8), (3, 14)] := by
  intro c text
  rw [Text.toList_toUTF8_ofList]
  intro files
  obtain ⟨parsed, hparsed, halone⟩ :=
    exists_parsed files "a" c.budget (by decide +kernel)
  obtain ⟨p, out, log, first, second, hp, hcompile, hreports, hfirst, hsecond, -⟩ :=
    second_copy_complains_about_parameters .default false files "a" parsed hparsed halone
  refine ⟨parsed, p, out, log, first, second, hparsed, halone, hp, hcompile, hreports, hfirst, ?_⟩
  have hmarks : ((parseFile Grammar.table files "a" c.budget).toOption.bind fun parsed =>
      parsed.tree.program.toOption.map fun p =>
        (p.flatMap Decl.marks).map fun u => (u.site.line, u.site.column)) =
          some [(1, 5), (2, 6), (3, 6), (3, 8), (3, 14)] := by
    decide +kernel
  rw [hparsed] at hmarks
  simp only [Except.toOption, Option.bind_some, hp, Option.map_some] at hmarks
  rw [hsecond, List.map_map]
  exact Option.some.inj hmarks

/-- One complaint for each declaration is not what the second copy of every file has: a parameter
has its own. -/
theorem second_copy_not_once_per_declaration :
    ¬ ∀ (config : Config) (cancelled : Bool) (files : OpenFile) (path : String) (parsed : Parsed),
      let c : Compiler := ⟨config, .built, cancelled⟩
      parseFile Grammar.table files path c.budget = .ok parsed →
      (Analysis.ofOutcomes [some parsed.tree]).faults = [] →
      ∃ p out log first second, parsed.tree.program = .ok p ∧
        c.compile files [path, path] = .ok (out, log) ∧ out.reports = [first, second] ∧
        first.diagnostics = [] ∧
        second.diagnostics = p.map fun d => duplicate d.name d.name.site := by
  intro h
  let files : OpenFile := fun _ =>
    .ok (.ofBytes "func f(x: int): int { return x; }\n".toUTF8.toList)
  let c : Compiler := ⟨.default, .built, false⟩
  obtain ⟨parsed, hparsed, halone⟩ :=
    exists_parsed files "a.src" c.budget (by decide +kernel)
  obtain ⟨p, out, log, first, second, hp, hcompile, hreports, -, hsecond⟩ :=
    h .default false files "a.src" parsed hparsed halone
  obtain ⟨p', out', log', first', second', hp', hcompile', hreports', -, hsecond'⟩ :=
    Compiler.reports_twice (c := c) rfl hparsed halone
  have hsame : p' = p := Except.ok.inj (hp'.symm.trans hp)
  have hout : out' = out := congrArg Prod.fst (Except.ok.inj (hcompile'.symm.trans hcompile))
  subst hsame hout
  rw [hreports'] at hreports
  obtain ⟨-, hreport⟩ := List.cons_eq_cons.mp hreports
  obtain rfl : second' = second := List.head_eq_of_cons_eq hreport
  have hparams := p'.complaints_eq_iff.mp (hsecond'.symm.trans hsecond)
  have hsome : ((parseFile Grammar.table files "a.src" c.budget).toOption.bind fun parsed =>
      parsed.tree.program.toOption.map fun p => p.all (·.params.isEmpty)) = some false := by
    decide +kernel
  rw [hparsed] at hsome
  simp only [Except.toOption, Option.bind_some, hp', Option.map_some] at hsome
  have hall : p'.all (·.params.isEmpty) = true :=
    List.all_eq_true.mpr fun d hd => List.isEmpty_iff.mpr (hparams d hd)
  rw [hall] at hsome
  cases hsome

end ThreeAddress
