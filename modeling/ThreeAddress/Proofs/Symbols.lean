import Mathlib.Data.List.ReduceOption
import ThreeAddress.Proofs.Emission
import ThreeAddress.Proofs.Validity

namespace ThreeAddress

namespace SymbolTable

theorem get?_foldl_declareNew_of_some {t : SymbolTable} {name : String} {s : Symbol}
    (ss : List Symbol) (h : t.get? name = some s) :
    (ss.foldl declareNew t).get? name = some s := by
  induction ss generalizing t with
  | nil => exact h
  | cons x ss ih => exact ih (Merged.get?_declareNew_of_some h)

theorem of_get?_foldl_declareNew {t : SymbolTable} {name : String} {s : Symbol} {ss : List Symbol}
    (h : (ss.foldl declareNew t).get? name = some s) :
    t.get? name = some s ∨ s ∈ ss ∧ s.name = name := by
  induction ss generalizing t with
  | nil => exact .inl h
  | cons x ss ih =>
    rcases ih h with h | ⟨hs, hn⟩
    · rw [get?_declareNew, Option.or_eq_some_iff] at h
      rcases h with h | ⟨-, h⟩
      · exact .inl h
      · split at h
        · next hn =>
          obtain rfl := Option.some.inj h
          exact .inr ⟨List.mem_cons_self, hn⟩
        · cases h
    · exact .inr ⟨List.mem_cons_of_mem x hs, hn⟩

theorem isSome_get?_foldl_declareNew {t : SymbolTable} {ss : List Symbol} {s : Symbol}
    (hs : s ∈ ss) : ∃ s', (ss.foldl declareNew t).get? s.name = some s' := by
  induction ss generalizing t with
  | nil => cases hs
  | cons x ss ih =>
    rcases List.mem_cons.mp hs with rfl | hs
    · have hx : ∃ s', (t.declareNew s).get? s.name = some s' := by
        rw [get?_declareNew]
        cases t.get? s.name with
        | some first => exact ⟨first, rfl⟩
        | none => exact ⟨s, by simp⟩
      obtain ⟨s', hs'⟩ := hx
      exact ⟨s', get?_foldl_declareNew_of_some ss hs'⟩
    · exact ih hs

end SymbolTable

/-- A table has the symbols of all declarations, and in a function those of its parameters and
locals only, with the types that they are declared with. -/
structure SymbolTable.Holds (t : SymbolTable) (p : Program) : Prop where
  heads : ∀ {d}, d ∈ p → ∃ s, t.Entry p d.head s
  bindings : ∀ {r}, .routine r ∈ p → ∀ v ∈ r.bindings,
    ∃ s ty, t.local? r.name.lexeme v.1.lexeme = some s ∧ s.ty = some ty ∧ p.Denotes v.2 ty
  only : ∀ {r}, .routine r ∈ p → ∀ x s, t.local? r.name.lexeme x = some s →
    ∃ v ∈ r.bindings, v.1.lexeme = x

theorem SymbolTable.Holds.serves {t : SymbolTable} {p : Program} (h : t.Holds p) : t.Serves p where
  globals hm := by
    obtain ⟨s, hs⟩ := h.heads hm
    obtain ⟨ty, hty, ht⟩ := hs.type
    exact ⟨s, ty, hs.get, hty, ht⟩
  locals hr v hv := h.bindings hr v (List.mem_append_right _ hv)

namespace Program

variable {p : Program}

/-- No two declarations of a well-formed program have one name. -/
theorem WellFormed.decl_unique (h : p.WellFormed) {d d' : Decl} (hd : d ∈ p) (hd' : d' ∈ p)
    (hn : d.name.lexeme = d'.name.lexeme) : d = d' :=
  List.inj_on_of_nodup_map h.names hd hd' hn

theorem WellFormed.routine_unique (h : p.WellFormed) {r r' : Routine} (hr : .routine r ∈ p)
    (hr' : .routine r' ∈ p) (hn : r.name.lexeme = r'.name.lexeme) : r = r' :=
  Decl.routine.inj (h.decl_unique hr hr' hn)

theorem WellFormed.denotes_unique (h : p.WellFormed) {t : Token} {ty ty' : Ty}
    (ht : p.Denotes t ty) (ht' : p.Denotes t ty') : ty = ty' := by
  induction ht with
  | builtin hk =>
    cases ht' with
    | builtin hk' => exact Option.some.inj (hk.symm.trans hk')
    | «alias» hk' => cases hk.symm.trans hk'
  | «alias» hk hd hn _ ih =>
    cases ht' with
    | builtin hk' => cases hk.symm.trans hk'
    | «alias» _ hd' hn' ht' =>
      cases h.decl_unique hd hd' (hn.trans hn'.symm)
      exact ih ht'

/-- A local has one type, and its name is not that of a parameter. -/
theorem WellFormed.local_unique (h : p.WellFormed) {r : Routine} (hr : .routine r ∈ p)
    {v : Token × Token} (hv : v ∈ r.body.flatMap Stmt.declared) :
    (∀ v' ∈ r.body.flatMap Stmt.declared, v'.1.lexeme = v.1.lexeme → v' = v) ∧
      ∀ q ∈ r.params, q.name.lexeme ≠ v.1.lexeme := by
  have hb := h.bindings r hr
  constructor
  · intro v' hv' hn
    exact List.inj_on_of_nodup_map hb (List.mem_append_right _ hv') (List.mem_append_right _ hv) hn
  · intro q hq hqv
    simp only [Routine.bindings, List.map_append, List.map_map] at hb
    refine (List.nodup_append.mp hb).2.2 q.name.lexeme ?_ v.1.lexeme (List.mem_map_of_mem hv) hqv
    exact List.mem_map.mpr ⟨q, hq, rfl⟩

end Program

namespace ReadFile

variable {b : List ReadFile}

/-- The locals of functions, in the order of the work. -/
def localSymbols (t : SymbolTable) (b : List ReadFile) : List Symbol :=
  b.flatMap fun f => (Analysis.bodies t f.tree).2

theorem symbols_eq (b : List ReadFile) :
    (Analysis.ofFiles (b.map numbered)).symbols =
      (localSymbols (Merged.ofFiles (b.map numbered)).typedSymbols b).foldl SymbolTable.declareNew
        (Merged.ofFiles (b.map numbered)).typedSymbols := by
  simp only [Analysis.ofFiles, Analysis.headers, localSymbols, List.map_map, List.flatMap_map,
    numbered, Function.comp_def]

theorem mem_localSymbols {t : SymbolTable} {s : Symbol} :
    s ∈ localSymbols t b ↔ ∃ f ∈ b, ∃ g ∈ f.tree.functions, s ∈ (g.check t).2 := by
  simp [localSymbols, Analysis.bodies]

/-- A qualified name of the table before the locals is that of a parameter. -/
theorem param_of_get? {t : SymbolTable} {p : Program} (hd : t.Describes p) (hw : p.Written)
    (h : p.WellFormed) {r : Routine} (hr : .routine r ∈ p) {x : String} {s : Symbol}
    (hs : t.get? (Symbol.qualify r.name.lexeme x) = some s) : ∃ q ∈ r.params, q.name.lexeme = x := by
  have hplain (d : Decl) (hm : d ∈ p) : ':' ∉ d.name.lexeme.toList :=
    hw.names d hm d.name d.name_mem_names
  obtain ⟨d, hm, e, he, hk⟩ := hd.only _ _ hs
  have hne : e ≠ d.head := by
    rintro rfl
    rw [Decl.key_head] at hk
    exact hplain d hm (hk ▸ Symbol.colon_mem_qualify _ _)
  cases d with
  | «alias» name target => exact absurd (List.mem_singleton.mp he) hne
  | «global» name ty init => exact absurd (List.mem_singleton.mp he) hne
  | routine r' =>
    rcases List.mem_cons.mp he with rfl | he
    · exact absurd rfl hne
    · obtain ⟨⟨q, slot⟩, hq, rfl⟩ := List.mem_map.mp he
      obtain ⟨hn, hx⟩ := Symbol.qualify_inj (hplain _ hm) (hplain _ hr) hk
      obtain rfl := h.routine_unique hm hr hn
      exact ⟨q, List.fst_mem_of_mem_zipIdx hq, hx⟩

section
variable {t : SymbolTable} (hd : t.Describes (located b).program)
  (h : (located b).program.WellFormed)
include hd h

/-- The locals of a function, as its check gives them. -/
theorem declares_of_mem {f : ReadFile} (hf : f ∈ b) {g : Function} (hg : g ∈ f.tree.functions) :
    ∃ r, .routine r ∈ (located b).program ∧ g.routine = .ok r ∧
      Frame.Declares (located b).program r.name (r.body.flatMap Stmt.declared) (g.check t).2 := by
  obtain ⟨-, -, hsound⟩ := Program.wellFormed_iff.mp h
  obtain ⟨r, hgr, hr⟩ := exists_routine hf hg
  obtain ⟨ds, hcheck, hdecl⟩ :=
    Routine.check_complete hd (written_located b) hr hgr (hsound r hr)
  exact ⟨r, hr, hgr, by rw [hcheck]; exact hdecl⟩

theorem local_of_mem {s : Symbol} (hs : s ∈ localSymbols t b) :
    ∃ r, .routine r ∈ (located b).program ∧ ∃ v ∈ r.body.flatMap Stmt.declared, ∃ ty,
      (located b).program.Denotes v.2 ty ∧ s = Frame.localSymbol r.name v.1 (some ty) := by
  obtain ⟨f, hf, g, hg, hs⟩ := mem_localSymbols.mp hs
  obtain ⟨r, hr, -, hdecl⟩ := declares_of_mem hd h hf hg
  exact ⟨r, hr, exists_of_mem_left hdecl.flip hs⟩

theorem mem_of_local {r : Routine} (hr : .routine r ∈ (located b).program) {v : Token × Token}
    (hv : v ∈ r.body.flatMap Stmt.declared) :
    ∃ ty, Frame.localSymbol r.name v.1 (some ty) ∈ localSymbols t b := by
  obtain ⟨f, hf, g, hg, hgr⟩ := exists_function hr
  obtain ⟨r', -, hgr', hdecl⟩ := declares_of_mem hd h hf hg
  obtain rfl := Except.ok.inj (hgr.symm.trans hgr')
  obtain ⟨s, hs, ty, -, rfl⟩ := exists_of_mem_left hdecl hv
  exact ⟨ty, mem_localSymbols.mpr ⟨f, hf, g, hg, hs⟩⟩

/-- A qualified name of the whole table is that of a parameter or of a local, which has the type
that it is declared with. -/
theorem local_of_get? {r : Routine} (hr : .routine r ∈ (located b).program) {x : String}
    {s : Symbol}
    (hs : ((localSymbols t b).foldl SymbolTable.declareNew t).local? r.name.lexeme x = some s) :
    (∃ q ∈ r.params, q.name.lexeme = x) ∨
      ∃ v ∈ r.body.flatMap Stmt.declared, v.1.lexeme = x ∧ ∃ ty, s.ty = some ty ∧
        (located b).program.Denotes v.2 ty := by
  have hw := written_located b
  have hplain (r : Routine) (hr : .routine r ∈ (located b).program) :
      ':' ∉ r.name.lexeme.toList := hw.names _ hr _ (Decl.name_mem_names (.routine r))
  rcases SymbolTable.of_get?_foldl_declareNew hs with hs | ⟨hs, hname⟩
  · exact .inl (param_of_get? hd hw h hr hs)
  · obtain ⟨r', hr', v, hv, ty, ht, rfl⟩ := local_of_mem hd h hs
    obtain ⟨hn, hx⟩ := Symbol.qualify_inj (hplain r' hr') (hplain r hr) hname
    obtain rfl := h.routine_unique hr' hr hn
    exact .inr ⟨v, hv, hx, ty, rfl, ht⟩

end

theorem holds (h : (located b).program.WellFormed) :
    (Analysis.ofFiles (b.map numbered)).symbols.Holds (located b).program := by
  obtain ⟨-, hheaders, -⟩ := Program.wellFormed_iff.mp h
  have hd := describes (fresh_of_wellFormed h) hheaders
  rw [symbols_eq]
  generalize (Merged.ofFiles (b.map numbered)).typedSymbols = t at hd
  constructor
  · intro d hm
    obtain ⟨s, hs⟩ := hd.entry_head hm
    exact ⟨s, { hs with get := SymbolTable.get?_foldl_declareNew_of_some _ hs.get }⟩
  · intro r hr v hv
    rcases List.mem_append.mp hv with hv | hv
    · obtain ⟨q, hq, rfl⟩ := List.mem_map.mp hv
      obtain ⟨slot, hm⟩ := Routine.param_mem_declarations hq
      obtain ⟨s, hs⟩ := hd.entry _ hr _ hm
      obtain ⟨ty, hty, ht⟩ := hs.type
      exact ⟨s, ty, SymbolTable.get?_foldl_declareNew_of_some _ hs.get, hty, ht⟩
    · -- The name of the local is new to the table, and no other local has it.
      obtain ⟨hsame, hparam⟩ := h.local_unique hr hv
      obtain ⟨ty, hmem⟩ := mem_of_local hd h hr hv
      obtain ⟨s, hs⟩ := SymbolTable.isSome_get?_foldl_declareNew (t := t) hmem
      rcases local_of_get? hd h hr hs with ⟨q, hq, hqv⟩ | ⟨v', hv', hn, ty', hty, ht⟩
      · exact absurd hqv (hparam q hq)
      · obtain rfl := hsame v' hv' hn
        exact ⟨s, ty', hs, hty, ht⟩
  · intro r hr x s hs
    rcases local_of_get? hd h hr hs with ⟨q, hq, hx⟩ | ⟨v, hv, hx, -⟩
    · exact ⟨(q.name, q.type), List.mem_append_left _ (List.mem_map.mpr ⟨q, hq, rfl⟩), hx⟩
    · exact ⟨v, List.mem_append_right _ hv, hx⟩

end ReadFile

namespace Analysis

variable {outcomes : List (Option Tree)}

/-- A valid batch reads as a well-formed program whose table has all its symbols, and every tree of
it is a phrase of that program. -/
theorem holds_of_valid (h : ∀ t, some t ∈ outcomes → t.FromSource)
    (hv : (ofOutcomes outcomes).valid = true) :
    ∃ ps, outcomes.reduceOption.mapM Tree.program = .ok ps ∧ Program.WellFormed ps.flatten ∧
      Program.Written ps.flatten ∧ (ofOutcomes outcomes).symbols.Holds ps.flatten ∧
      ∀ t, some t ∈ outcomes → ∃ f : Phrase.File, t.items = f.nodes ∧ f.program ⊆ ps.flatten := by
  obtain ⟨b, hanalysis, htrees⟩ := ReadFile.exists_batch h
  rw [hanalysis] at hv ⊢
  have hwf := ReadFile.no_faults_iff.mp ((valid_iff_no_faults _).mp hv)
  have hholds := ReadFile.holds hwf
  have hwritten := ReadFile.written_located b
  have hps : (ReadFile.located b).program = (b.map (·.program)).flatten :=
    ReadFile.program_located b
  rw [hps] at hwf hholds hwritten
  refine ⟨_, by rw [htrees, ReadFile.mapM_program], hwf, hwritten, hholds, fun t ht => ?_⟩
  obtain ⟨budget, file, s, ts, hl, hp⟩ := h t ht
  obtain ⟨f, hitems, -⟩ := Tree.exists_phrase hl hp
  refine ⟨f, hitems, fun d hd => ?_⟩
  have hmem : t ∈ b.map (·.tree) := htrees ▸ List.reduceOption_mem_iff.mpr ht
  obtain ⟨r, hr, rfl⟩ := List.mem_map.mp hmem
  have hprogram := Except.ok.inj (r.read.symm.trans (Phrase.File.program_of_items hitems))
  exact List.mem_flatten.mpr ⟨r.program, List.mem_map_of_mem hr, hprogram ▸ hd⟩

/-- The same with what code generation needs of the table. -/
theorem program_of_valid (h : ∀ t, some t ∈ outcomes → t.FromSource)
    (hv : (ofOutcomes outcomes).valid = true) :
    ∃ ps, outcomes.reduceOption.mapM Tree.program = .ok ps ∧ Program.WellFormed ps.flatten ∧
      Program.Written ps.flatten ∧ (ofOutcomes outcomes).symbols.Serves ps.flatten ∧
      ∀ t, some t ∈ outcomes → ∃ f : Phrase.File, t.items = f.nodes ∧ f.program ⊆ ps.flatten := by
  obtain ⟨ps, hps, hwf, hw, hholds, hphrase⟩ := holds_of_valid h hv
  exact ⟨ps, hps, hwf, hw, hholds.serves, hphrase⟩

/-- With a valid analysis every parsed tree of the batch has code. -/
theorem emit_ok (h : ∀ t, some t ∈ outcomes → t.FromSource)
    (hv : (ofOutcomes outcomes).valid = true) {t : Tree} (ht : some t ∈ outcomes) :
    ∃ code, t.emit Phase.table (ofOutcomes outcomes).symbols = .ok code := by
  obtain ⟨ps, -, hwf, hw, hserves, hphrase⟩ := program_of_valid h hv
  obtain ⟨f, hitems, hsub⟩ := hphrase t ht
  obtain ⟨codes, hcodes⟩ := mapM_ok fun d hd =>
    Code.decl_ok hserves (hsub hd) (hwf.usable hw (hsub hd))
  refine ⟨codes.flatten, ?_⟩
  rw [Tree.emit_eq _ hitems, hcodes]
  rfl

end Analysis

end ThreeAddress
