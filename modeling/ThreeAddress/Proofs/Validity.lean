import ThreeAddress.Proofs.Bodies
import ThreeAddress.Proofs.Faults
import ThreeAddress.Proofs.Reading

namespace ThreeAddress

namespace ReadFile

/-- The declarations of files, each with the number of its file. -/
def located (b : List ReadFile) : Located := b.flatMap fun f => f.program.map (f.origin, ·)

theorem program_located (b : List ReadFile) : (located b).program = b.flatMap (·.program) := by
  simp [Located.program, located, List.map_flatMap, Function.comp_def]

theorem written_located (b : List ReadFile) : (located b).program.Written := by
  rw [program_located]
  constructor
  · intro d hd
    obtain ⟨f, _, hd⟩ := List.mem_flatMap.mp hd
    exact f.written.names d hd
  · intro d hd
    obtain ⟨f, _, hd⟩ := List.mem_flatMap.mp hd
    exact f.written.values d hd
  · intro name type init hd
    obtain ⟨f, _, hd⟩ := List.mem_flatMap.mp hd
    exact f.written.inits name type init hd

theorem merged_eq (b : List ReadFile) :
    Merged.ofFiles (b.map numbered) = Merged.merge .empty (located b).findings := by
  unfold Merged.ofFiles
  congr 1
  simp only [located, Located.findings, numbered, List.flatMap_map, List.flatMap_assoc, findings_eq,
    List.map_flatMap, List.map_map, Function.comp_def]

/-- The functions of a file read as those of its program. -/
theorem functions_read (f : ReadFile) :
    List.Forall₂ (fun g r => g.routine = .ok r) f.tree.functions
      (f.program.filterMap Decl.routine?) := by
  have hn := f.nodes
  unfold Tree.functions
  generalize f.tree.declarations = ns at hn ⊢
  generalize f.program = ds at hn ⊢
  induction hn with
  | nil => exact .nil
  | @cons n d ns ds h _ ih =>
    obtain ⟨i, hi, -, ⟨g, r, rfl, rfl, hg⟩ | ⟨hne, hd⟩⟩ := Decl.item_of_ofNode h
    · simp only [List.filterMap_cons, hi, Decl.routine?]
      exact .cons hg ih
    · simp only [List.filterMap_cons, hi, hd]
      cases i with
      | func g => exact absurd rfl (hne g)
      | _ => exact ih

end ReadFile

theorem Decl.mem_filterMap_routine? {p : Program} {r : Routine} :
    r ∈ p.filterMap Decl.routine? ↔ .routine r ∈ p := by
  rw [List.mem_filterMap]
  constructor
  · rintro ⟨d, hd, h⟩
    cases d <;> cases h
    exact hd
  · intro h
    exact ⟨_, h, rfl⟩

namespace Program

variable {p : Program}

theorem declared_of_bodyFits {ret : Token} {Γ : Locals} {ss : List Stmt}
    (h : p.BodyFits ret Γ ss) : ∀ v ∈ ss.flatMap Stmt.declared, ∃ ty, p.Denotes v.2 ty := by
  induction h with
  | nil => exact List.forall_mem_nil _
  | cons hs _ ih =>
    rw [List.flatMap_cons, List.forall_mem_append]
    refine ⟨?_, ih⟩
    cases hs with
    | declare ht => simpa [Stmt.declared] using ⟨_, ht⟩
    | init ht => simpa [Stmt.declared] using ⟨_, ht⟩
    | _ => exact List.forall_mem_nil _

theorem WellFormed.headerFits (h : p.WellFormed) {d : Decl} (hd : d ∈ p) : p.HeaderFits d := by
  cases d with
  | «alias» name target => exact h.types _ hd target (List.mem_singleton_self _)
  | «global» name type init =>
    cases init with
    | none =>
      obtain ⟨ty, ht⟩ := h.types _ hd type (List.mem_singleton_self _)
      exact ⟨ty, ht, nofun⟩
    | some u =>
      obtain ⟨ty, ht, hu⟩ := h.inits name type u hd
      refine ⟨ty, ht, fun v hv => ?_⟩
      obtain rfl := Option.some.inj hv
      exact ⟨h.literals _ hd u (List.mem_singleton_self _), hu⟩
  | routine r =>
    refine ⟨h.types _ hd r.ret List.mem_cons_self, fun q hq => ?_⟩
    refine h.types _ hd q.type (List.mem_cons_of_mem _ (List.mem_map.mpr ⟨(q.name, q.type), ?_, rfl⟩))
    exact List.mem_append_left _ (List.mem_map_of_mem hq)

theorem WellFormed.sound (h : p.WellFormed) {r : Routine} (hr : .routine r ∈ p) : r.Sound p where
  bindings := h.bindings r hr
  literals s hs u hu := h.literals _ hr u (List.mem_flatMap.mpr ⟨s, hs, hu⟩)
  body := h.bodies r hr

/-- The types of a header that fits and of a sound body are types. -/
theorem HeaderFits.denotes {d : Decl} (h : p.HeaderFits d) (hs : ∀ r, d = .routine r → r.Sound p) :
    ∀ t ∈ d.types, ∃ ty, p.Denotes t ty := by
  intro t ht
  cases d with
  | «alias» name target =>
    obtain rfl := List.mem_singleton.mp ht
    exact h
  | «global» name type init =>
    obtain rfl := List.mem_singleton.mp ht
    obtain ⟨ty, hty, _⟩ := h
    exact ⟨ty, hty⟩
  | routine r =>
    obtain ⟨Γ, _, hbody⟩ := (hs r rfl).body
    rcases List.mem_cons.mp ht with rfl | ht
    · exact h.1
    · obtain ⟨v, hv, rfl⟩ := List.mem_map.mp ht
      rcases List.mem_append.mp hv with hv | hv
      · obtain ⟨q, hq, rfl⟩ := List.mem_map.mp hv
        exact h.2 q hq
      · exact declared_of_bodyFits hbody v hv

theorem HeaderFits.inRange {d : Decl} (h : p.HeaderFits d) (hs : ∀ r, d = .routine r → r.Sound p) :
    ∀ t ∈ d.values, t.InRange := by
  intro t ht
  cases d with
  | «alias» name target => cases ht
  | «global» name type init =>
    cases init with
    | none => cases ht
    | some u =>
      obtain rfl := List.mem_singleton.mp ht
      obtain ⟨ty, _, hu⟩ := h
      exact (hu t rfl).1
  | routine r =>
    obtain ⟨s, hbody, ht⟩ := List.mem_flatMap.mp ht
    exact (hs r rfl).literals s hbody t ht

/-- The rules are those on names, on headers and on bodies. -/
theorem wellFormed_iff :
    p.WellFormed ↔ (p.map (·.name.lexeme)).Nodup ∧ (∀ d ∈ p, p.HeaderFits d) ∧
      ∀ r, .routine r ∈ p → r.Sound p := by
  constructor
  · intro h
    exact ⟨h.names, fun d hd => h.headerFits hd, fun r hr => h.sound hr⟩
  · rintro ⟨hnames, hheaders, hsound⟩
    have hbody (d : Decl) (hd : d ∈ p) (r : Routine) (hr : d = .routine r) : r.Sound p :=
      hsound r (hr ▸ hd)
    refine ⟨hnames, fun r hr => (hsound r hr).bindings,
      fun d hd => (hheaders d hd).denotes (hbody d hd),
      fun d hd => (hheaders d hd).inRange (hbody d hd), ?_, fun r hr => (hsound r hr).body⟩
    intro name type init hd
    obtain ⟨ty, ht, hu⟩ := hheaders _ hd
    exact ⟨ty, ht, (hu init rfl).2⟩

end Program

namespace Located

variable {ds : Located}

theorem fresh_iff (hw : ds.program.Written) :
    Merged.Fresh .empty ds.declarations ↔ (ds.program.map (·.name.lexeme)).Nodup ∧
      ∀ d ∈ ds.program, (d.params.map (·.name.lexeme)).Nodup := by
  have hkeys : ds.declarations.map (·.key) =
      ds.program.flatMap fun d => d.declarations.map (·.key) := by
    simp [declarations, program, List.map_flatMap, List.flatMap_map]
  have hnames : ∀ d ∈ ds.program, ':' ∉ d.name.lexeme.toList := fun d hd =>
    hw.names d hd d.name d.name_mem_names
  rw [Merged.fresh_iff, hkeys, Program.nodup_keys_iff hnames]
  simp

end Located

namespace Routine

theorem nodup_params {p : Program} {r : Routine} (h : r.Sound p) :
    (r.params.map (·.name.lexeme)).Nodup := by
  have hb := h.bindings
  simp only [bindings, List.map_append, List.map_map] at hb
  exact (List.nodup_append.mp hb).1

end Routine

namespace ReadFile

/-- What checking the bodies of files finds. -/
abbrev bodyFaults (t : SymbolTable) (b : List ReadFile) : List Fault :=
  (b.map fun f => (f.origin, Analysis.bodies t f.tree)).flatMap fun x => x.2.1.map (⟨x.1, ·⟩)

theorem faults_eq (b : List ReadFile) :
    (Analysis.ofFiles (b.map numbered)).faults =
      (Merged.ofFiles (b.map numbered)).faults ++
        (Merged.ofFiles (b.map numbered)).resolved.flatMap (·.2) ++
        bodyFaults (Merged.ofFiles (b.map numbered)).typedSymbols b := by
  simp only [Analysis.ofFiles, Analysis.headers, List.map_map, Function.comp_def, numbered, bodyFaults]

/-- Bodies have no faults if every function's check has none. -/
theorem bodyFaults_eq_nil_iff (t : SymbolTable) (b : List ReadFile) :
    bodyFaults t b = [] ↔ ∀ f ∈ b, ∀ g ∈ f.tree.functions, (g.check t).1 = [] := by
  simp [bodyFaults, Analysis.bodies]

theorem exists_function {b : List ReadFile} {r : Routine} (h : .routine r ∈ (located b).program) :
    ∃ f ∈ b, ∃ g ∈ f.tree.functions, g.routine = .ok r := by
  rw [program_located] at h
  obtain ⟨f, hf, hr⟩ := List.mem_flatMap.mp h
  have hr := Decl.mem_filterMap_routine?.mpr hr
  obtain ⟨g, hg, hgr⟩ := exists_of_mem_left f.functions_read.flip hr
  exact ⟨f, hf, g, hg, hgr⟩

theorem exists_routine {b : List ReadFile} {f : ReadFile} (hf : f ∈ b) {g : Function}
    (hg : g ∈ f.tree.functions) :
    ∃ r, g.routine = .ok r ∧ .routine r ∈ (located b).program := by
  obtain ⟨r, hr, hgr⟩ := exists_of_mem_left f.functions_read hg
  refine ⟨r, hgr, ?_⟩
  rw [program_located]
  exact List.mem_flatMap.mpr ⟨f, hf, Decl.mem_filterMap_routine?.mp hr⟩

section
variable {b : List ReadFile}

/-- The table of a batch with fresh names and fitting headers. -/
theorem describes (hfresh : Merged.Fresh .empty (located b).declarations)
    (hh : ∀ d ∈ (located b).program, (located b).program.HeaderFits d) :
    (Merged.ofFiles (b.map numbered)).typedSymbols.Describes (located b).program := by
  have hm : Merged.ofFiles (b.map numbered) = (located b).merged := by
    rw [merged_eq, Merged.merge_findings hfresh]
    rfl
  rw [hm]
  exact Located.describes_typedSymbols hfresh (written_located b) hh

theorem fresh_of_no_faults (h : (Merged.ofFiles (b.map numbered)).faults = []) :
    Merged.Fresh .empty (located b).declarations := by
  by_contra hn
  rw [merged_eq] at h
  exact Merged.faults_findings hn h

theorem resolved_eq (hfresh : Merged.Fresh .empty (located b).declarations) :
    (Merged.ofFiles (b.map numbered)).resolved =
      (Resolution.start (located b).merged).steps (located b).accepted := by
  rw [merged_eq, Merged.merge_findings hfresh]
  rfl

theorem headersFit_of_no_faults (hfresh : Merged.Fresh .empty (located b).declarations)
    (h : (Merged.ofFiles (b.map numbered)).resolved.flatMap (·.2) = []) :
    ∀ d ∈ (located b).program, (located b).program.HeaderFits d := by
  by_contra hn
  have hn : ¬ ∀ x ∈ located b, (located b).program.HeaderFits x.2 := by
    intro hall
    refine hn fun d hd => ?_
    obtain ⟨x, hx, rfl⟩ := List.mem_map.mp hd
    exact hall x hx
  obtain ⟨x, hx, hne⟩ := Resolution.faults_accepted (Located.right_start hfresh)
    (written_located b) (fun x hx => Located.mem_program hx) hn
  rw [resolved_eq hfresh] at h
  exact hne (List.flatMap_eq_nil_iff.mp h x hx)

theorem resolved_of_headersFit (hfresh : Merged.Fresh .empty (located b).declarations)
    (hh : ∀ d ∈ (located b).program, (located b).program.HeaderFits d) :
    (Merged.ofFiles (b.map numbered)).resolved.flatMap (·.2) = [] := by
  rw [resolved_eq hfresh]
  have hclean := Resolution.steps_accepted (Located.right_start hfresh) (written_located b)
    (fun x hx => Located.mem_program hx) fun x hx => hh x.2 (Located.mem_program hx)
  refine List.flatMap_eq_nil_iff.mpr fun x hx => ?_
  obtain ⟨a, -, h, -⟩ := exists_of_mem_left hclean.flip hx
  exact h

theorem fresh_of_wellFormed (h : (located b).program.WellFormed) :
    Merged.Fresh .empty (located b).declarations := by
  obtain ⟨hnames, -, hsound⟩ := Program.wellFormed_iff.mp h
  refine (Located.fresh_iff (written_located b)).mpr ⟨hnames, fun d hd => ?_⟩
  cases d with
  | routine r => exact Routine.nodup_params (hsound r hd)
  | _ => exact List.nodup_nil

/-- A batch has no faults exactly when its program is well formed. -/
theorem no_faults_iff :
    (Analysis.ofFiles (b.map numbered)).faults = [] ↔ (located b).program.WellFormed := by
  have hw := written_located b
  rw [faults_eq, List.append_eq_nil_iff, List.append_eq_nil_iff, bodyFaults_eq_nil_iff]
  constructor
  · rintro ⟨⟨hmerge, hresolve⟩, hbodies⟩
    have hfresh := fresh_of_no_faults hmerge
    have hheaders := headersFit_of_no_faults hfresh hresolve
    obtain ⟨hnames, hparams⟩ := (Located.fresh_iff hw).mp hfresh
    refine Program.wellFormed_iff.mpr ⟨hnames, hheaders, fun r hr => ?_⟩
    obtain ⟨f, hf, g, hg, hgr⟩ := exists_function hr
    exact Routine.check_sound (describes hfresh hheaders) hw hr (hparams _ hr) hgr (hbodies f hf g hg)
  · intro h
    obtain ⟨-, hheaders, hsound⟩ := Program.wellFormed_iff.mp h
    have hfresh := fresh_of_wellFormed h
    refine ⟨⟨?_, resolved_of_headersFit hfresh hheaders⟩, fun f hf g hg => ?_⟩
    · rw [merged_eq, Merged.merge_findings hfresh]
    · obtain ⟨r, hgr, hr⟩ := exists_routine hf hg
      obtain ⟨ds, hcheck, -⟩ :=
        Routine.check_complete (describes hfresh hheaders) hw hr hgr (hsound r hr)
      rw [hcheck]

end

end ReadFile

/-- The tree is that of a source that lexes and parses. -/
def Tree.FromSource (t : Tree) : Prop :=
  ∃ (budget : Budget) (file : String) (s : Source) (ts : List Token),
    tokenize budget file s = .ok ts ∧ parse Grammar.table ts = .ok t

/-- The tree of a text, if it lexes and parses. -/
def Tree.ofText? (file text : String) : Option Tree :=
  match tokenize .unlimited file (.ofBytes text.toUTF8.toList) with
  | .error _ => none
  | .ok ts =>
    match parse Grammar.table ts with
    | .error _ => none
    | .ok t => some t

/-- The tree of a text that is given by its characters, which takes fewer steps to evaluate. -/
def Tree.ofChars? (file : String) (cs : List Char) : Option Tree :=
  match tokenize .unlimited file (.ofBytes (cs.flatMap String.utf8EncodeChar)) with
  | .error _ => none
  | .ok ts =>
    match parse Grammar.table ts with
    | .error _ => none
    | .ok t => some t

theorem Tree.ofText?_ofList (file : String) (cs : List Char) :
    Tree.ofText? file (String.ofList cs) = Tree.ofChars? file cs := by
  rw [ofText?, Text.toList_toUTF8_ofList]
  rfl

theorem Tree.fromSource_of_ofChars? {file : String} {cs : List Char} {t : Tree}
    (h : Tree.ofChars? file cs = some t) : t.FromSource := by
  unfold Tree.ofChars? at h
  split at h
  · cases h
  · next ts hts =>
    split at h
    · cases h
    · next t' ht =>
      cases h
      exact ⟨_, _, _, ts, hts, ht⟩

theorem Tree.fromSource_of_ofText? {file text : String} {t : Tree}
    (h : Tree.ofText? file text = some t) : t.FromSource := by
  rw [← String.ofList_toList (s := text), ofText?_ofList] at h
  exact fromSource_of_ofChars? h

/-- Two texts, with a file between them that has no tree. -/
theorem Tree.fromSource_of_mem_pair {file₁ file₂ : String} {cs₁ cs₂ : List Char} (t : Tree)
    (h : some t ∈ [Tree.ofChars? file₁ cs₁, none, Tree.ofChars? file₂ cs₂]) : t.FromSource := by
  simp only [List.mem_cons, reduceCtorEq, List.not_mem_nil, or_false, false_or] at h
  rcases h with h | h
  · exact fromSource_of_ofChars? h.symm
  · exact fromSource_of_ofChars? h.symm

namespace ReadFile

theorem exists_readFiles {files : List (Nat × Tree)} (h : ∀ x ∈ files, x.2.FromSource) :
    ∃ b : List ReadFile, b.map numbered = files := by
  induction files with
  | nil => exact ⟨[], rfl⟩
  | cons x files ih =>
    obtain ⟨hx, hs⟩ := List.forall_mem_cons.mp h
    obtain ⟨b, rfl⟩ := ih hs
    obtain ⟨budget, file, s, ts, hl, hp⟩ := hx
    obtain ⟨f, hitems, hwritten⟩ := Tree.exists_phrase hl hp
    exact ⟨⟨x.1, x.2, f.program, Phrase.File.program_of_items hitems, hwritten⟩ :: b, rfl⟩

theorem mapM_program (b : List ReadFile) :
    (b.map (·.tree)).mapM Tree.program = .ok (b.map (·.program)) := by
  induction b with
  | nil => rfl
  | cons f b ih =>
    rw [List.map_cons, List.mapM_cons, f.read, ih]
    rfl

end ReadFile

theorem map_parsedFiles (outcomes : List (Option Tree)) :
    (parsedFiles outcomes).map (·.2) = outcomes.reduceOption := by
  have hf : (fun x : Option Tree × Nat => (x.1.map (x.2, ·)).map (·.2)) = fun x => id x.1 := by
    funext x
    cases x.1 <;> rfl
  calc (parsedFiles outcomes).map (·.2)
      = outcomes.zipIdx.filterMap fun x => (x.1.map (x.2, ·)).map (·.2) := List.map_filterMap
    _ = outcomes.zipIdx.filterMap fun x => id x.1 := by rw [hf]
    _ = (outcomes.zipIdx.map Prod.fst).filterMap id := by rw [List.filterMap_map]; rfl
    _ = outcomes.reduceOption := by rw [List.zipIdx_map_fst]; rfl

theorem fromSource_parsedFiles {outcomes : List (Option Tree)}
    (h : ∀ t, some t ∈ outcomes → t.FromSource) : ∀ x ∈ parsedFiles outcomes, x.2.FromSource := by
  intro x hx
  obtain ⟨⟨o, i⟩, hm, ho⟩ := List.mem_filterMap.mp hx
  obtain ⟨t, rfl, rfl⟩ := Option.map_eq_some_iff.mp ho
  exact h t (List.fst_mem_of_mem_zipIdx hm)

/-- The files that have a tree, read. -/
theorem ReadFile.exists_parsed {outcomes : List (Option Tree)}
    (h : ∀ t, some t ∈ outcomes → t.FromSource) :
    ∃ b : List ReadFile, b.map numbered = parsedFiles outcomes ∧
      b.map (·.tree) = outcomes.reduceOption ∧ ∀ f ∈ b, f.tree.FromSource := by
  obtain ⟨b, hb⟩ := exists_readFiles (fromSource_parsedFiles h)
  refine ⟨b, hb, ?_, fun f hf => ?_⟩
  · rw [← map_parsedFiles, ← hb, List.map_map]
    rfl
  · exact fromSource_parsedFiles h f.numbered (hb ▸ List.mem_map_of_mem hf)

/-- The batch that the trees of the outcomes are. -/
theorem ReadFile.exists_batch {outcomes : List (Option Tree)}
    (h : ∀ t, some t ∈ outcomes → t.FromSource) :
    ∃ b : List ReadFile, Analysis.ofOutcomes outcomes = Analysis.ofFiles (b.map numbered) ∧
      outcomes.reduceOption = b.map (·.tree) := by
  obtain ⟨b, hb, htrees, -⟩ := exists_parsed h
  exact ⟨b, by rw [Analysis.ofOutcomes, hb], htrees.symm⟩

/-- A batch of files that lex and parse, others left out, reads as a program, and its analysis is
valid exactly when that program is well formed. -/
theorem valid_iff_wellFormed (outcomes : List (Option Tree))
    (h : ∀ t, some t ∈ outcomes → t.FromSource) :
    ∃ ps, outcomes.reduceOption.mapM Tree.program = .ok ps ∧
      ((Analysis.ofOutcomes outcomes).valid = true ↔ Program.WellFormed ps.flatten) := by
  obtain ⟨b, hanalysis, htrees⟩ := ReadFile.exists_batch h
  refine ⟨b.map (·.program), by rw [htrees, ReadFile.mapM_program], ?_⟩
  rw [hanalysis, Analysis.valid_iff_no_faults, ReadFile.no_faults_iff, ReadFile.program_located]
  rfl

/-- An alias of one file is used in another, with a file between them that has no tree. -/
theorem valid_iff_wellFormed_alias_across_files :
    let outcomes := [Tree.ofText? "a" "type n = int;", none,
      Tree.ofText? "b" "func f(x: n): int { var y: n = 2; y = f(y); return x + y; }"]
    outcomes.reduceOption.length = 2 ∧
      ∃ ps, outcomes.reduceOption.mapM Tree.program = .ok ps ∧ Program.WellFormed ps.flatten := by
  rw [Tree.ofText?_ofList, Tree.ofText?_ofList]
  intro outcomes
  obtain ⟨ps, hps, hiff⟩ := valid_iff_wellFormed outcomes Tree.fromSource_of_mem_pair
  exact ⟨by decide +kernel, ps, hps, hiff.mp (by decide +kernel)⟩

end ThreeAddress
