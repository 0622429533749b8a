import Mathlib.Tactic.Choose
import ThreeAddress.Proofs.Acceptance
import ThreeAddress.Proofs.SampleMeaning
import ThreeAddress.Proofs.Splitting

namespace ThreeAddress

/-- Files with their texts compile to trees: each lexes and parses, the batch has no diagnostics and
every tree has code. -/
structure Compiles (budget : Budget) (files : List (String × String)) (trees : List Tree) :
    Prop where
  parsed : List.Forall₂ (fun x t => ∃ ts,
    tokenize budget x.1 (.ofBytes x.2.toUTF8.toList) = .ok ts ∧ parse Grammar.table ts = .ok t)
    files trees
  clean : (Analysis.ofOutcomes (trees.map some)).diagnostics = []
  lowers : ∀ t ∈ trees, ∃ code,
    t.emit Phase.table (Analysis.ofOutcomes (trees.map some)).symbols = .ok code

theorem Compiles.of_wellFormed {budget : Budget} {files : List (String × String)}
    {trees : List Tree} (hparsed : List.Forall₂ (fun x t => ∃ ts,
      tokenize budget x.1 (.ofBytes x.2.toUTF8.toList) = .ok ts ∧ parse Grammar.table ts = .ok t)
      files trees)
    {ps : List Program} (hps : trees.mapM Tree.program = .ok ps)
    (hwf : Program.WellFormed ps.flatten) : Compiles budget files trees := by
  have hsource : ∀ t ∈ trees, t.FromSource := by
    clear hps
    induction hparsed with
    | nil => exact List.forall_mem_nil _
    | @cons x t _ _ h _ ih =>
      obtain ⟨ts, hts, ht⟩ := h
      exact List.forall_mem_cons.mpr ⟨⟨budget, x.1, _, ts, hts, ht⟩, ih⟩
  have hsome : ∀ t, some t ∈ trees.map some → t.FromSource := by
    intro t ht
    obtain ⟨t', ht', heq⟩ := List.mem_map.mp ht
    exact Option.some.inj heq ▸ hsource t' ht'
  have htrees : (trees.map some).reduceOption = trees := by
    rw [List.reduceOption, List.filterMap_map]
    exact List.filterMap_some
  have hvalid : (Analysis.ofOutcomes (trees.map some)).valid = true :=
    (Analysis.valid_iff_of_program hsome (htrees.symm ▸ hps)).mpr hwf
  refine ⟨hparsed, ?_, fun t ht => Analysis.emit_ok hsome hvalid (List.mem_map_of_mem ht)⟩
  rw [Analysis.diagnostics, List.map_eq_nil_iff]
  exact (Analysis.valid_iff_no_faults _).mp hvalid

namespace Sample

/-- Pieces lex and parse, and they read as what they declare. -/
theorem Pieces.exists_tree {budget : Budget} (hb : budget.check = none) {mark : String}
    (hm : IsMark mark) {ps : List Piece} {names : Names} (h : Pieces .empty ps names)
    (hlength : ps.length < UInt64.size) (file : String) :
    ∃ ts t p, tokenize budget file
        (.ofBytes (String.join (ps.map (·.text mark))).toUTF8.toList) = .ok ts ∧
      parse Grammar.table ts = .ok t ∧ t.program = .ok p ∧
      p.Alike (ps.flatMap (·.decls mark)) := by
  obtain ⟨n, hlayout⟩ := h.exists_layout hm hlength
  have htree := hlayout.exists_tree hb file
  have hdecls : (ps.flatMap (·.items mark)).map Phrase.Item.decl = ps.flatMap (·.decls mark) := by
    simp only [List.map_flatMap, Piece.map_decl_items]
  rw [String.ofList_toList, hdecls] at htree
  exact htree

/-- A text is that of pieces, and there are not too many to number them. -/
def IsSample (mark text : String) : Prop :=
  ∃ ps names, text = String.join (ps.map (·.text mark)) ∧ Pieces .empty ps names ∧
    ps.length < UInt64.size

theorem isSample_program {σ : Type} (d : Dice σ) (s : σ) (length : UInt64) (mark : String) :
    IsSample mark (program d length.toNat mark s).1 ∧
      length.toNat ≤ (program d length.toNat mark s).1.utf8ByteSize := by
  have hjoin : (program d length.toNat mark s).1 =
      String.join (drawPieces d mark length.toNat length.toNat .empty s).1 := rfl
  obtain ⟨ps, names, htexts, hps, hlength, hbytes⟩ :=
    always_drawPieces d .empty mark length.toNat length.toNat s
  rw [hjoin]
  refine ⟨⟨ps, names, congrArg String.join htexts, hps, ?_⟩, hbytes (Nat.le_refl _)⟩
  exact Nat.lt_of_le_of_lt hlength length.toNat_lt

/-- Samples under marks that differ compile together. -/
theorem exists_compiles {budget : Budget} (hb : budget.check = none) {α : Type} (as : List α)
    (file : α → String) {mark text : α → String} (hmarks : (as.map mark).Nodup)
    (hm : ∀ a ∈ as, IsMark (mark a)) (h : ∀ a, IsSample (mark a) (text a)) :
    ∃ trees, Compiles budget (as.map fun a => (file a, text a)) trees := by
  choose ps names htext hps hlength using h
  -- Each text has its own tree, and the programs of the trees follow each other as the texts do.
  have hall : ∃ trees programs,
      List.Forall₂ (fun x t => ∃ ts, tokenize budget x.1 (.ofBytes x.2.toUTF8.toList) = .ok ts ∧
        parse Grammar.table ts = .ok t) (as.map fun a => (file a, text a)) trees ∧
      trees.mapM Tree.program = .ok programs ∧
      Program.Alike programs.flatten (as.flatMap fun a => (ps a).flatMap (·.decls (mark a))) := by
    clear hmarks
    induction as with
    | nil => exact ⟨[], [], .nil, rfl, rfl⟩
    | cons a as ih =>
      obtain ⟨ha, has⟩ := List.forall_mem_cons.mp hm
      obtain ⟨trees, programs, htrees, hprograms, halike⟩ := ih has
      obtain ⟨ts, t, p, hts, ht, hp, hpa⟩ := (hps a).exists_tree hb ha (hlength a) (file a)
      rw [← htext a] at hts
      refine ⟨t :: trees, p :: programs, .cons ⟨ts, hts, ht⟩ htrees, ?_, hpa.append halike⟩
      rw [List.mapM_cons, hp, hprograms]
      rfl
  obtain ⟨trees, programs, htrees, hprograms, halike⟩ := hall
  have hnodup : ((as.map fun a => (mark a, ps a)).map (·.1)).Nodup := by
    rw [List.map_map]
    exact hmarks
  have hwf := wellFormed_of_pieces hnodup (List.forall_mem_map.mpr fun a _ => ⟨names a, hps a⟩)
  rw [List.flatMap_map] at hwf
  exact ⟨trees, .of_wellFormed htrees hprograms (hwf.alike halike.symm)⟩

theorem toList_numbered (i : Nat) : (s!"m{i}").toList = nameText "" 'm' i := toList_name "" "m" i

theorem isMark_numbered {i : Nat} (hi : i < UInt64.size) : IsMark s!"m{i}" := by
  have hword := word_nameText isMark_empty 'm' (by decide) hi
  have hsize := utf8ByteSize_le s!"m{i}"
  have hlength := Numeral.length_toDigits_le (b := 10) (by decide) hi
  rw [toList_numbered] at hsize
  refine ⟨?_, ?_, ?_⟩
  · rw [toList_numbered]
    intro c hc
    obtain rfl := Option.some.inj hc
    decide
  · rw [toList_numbered]
    exact hword.all
  · refine Nat.le_trans hsize ?_
    show 4 * ((Nat.toDigits 10 i).length + 1) ≤ 32000
    omega

theorem numbered_inj {i j : Nat} (h : s!"m{i}" = s!"m{j}") : i = j := by
  have hname : nameText "" 'm' i = nameText "" 'm' j := by
    rw [← toList_numbered, ← toList_numbered, h]
  exact (nameText_inj (by decide) (by decide) hname).2.2

/-- Whatever is drawn, a sample program is as long as it was asked for and compiles, and so does a
batch of them under the marks m0, m1 and so on. -/
theorem sample_programs_compile {σ : Type} {budget : Budget} (hb : budget.check = none) :
    (∀ (d : Dice σ) (s : σ) (length : UInt64) (mark file : String), IsMark mark →
      length.toNat ≤ (program d length.toNat mark s).1.utf8ByteSize ∧
      ∃ t, Compiles budget [(file, (program d length.toNat mark s).1)] [t]) ∧
    ∀ (k : UInt64) (d : Nat → Dice σ) (s : Nat → σ) (length : Nat → UInt64) (file : Nat → String),
      ∃ trees, Compiles budget ((List.range k.toNat).map fun i =>
        (file i, (program (d i) (length i).toNat s!"m{i}" (s i)).1)) trees := by
  constructor
  · intro d s length mark file hm
    obtain ⟨hsample, hbytes⟩ := isSample_program d s length mark
    have hone : ([()].map fun _ => mark).Nodup := List.nodup_singleton mark
    obtain ⟨trees, htrees⟩ :=
      exists_compiles hb [()] (fun _ => file) hone (fun _ _ => hm) fun _ => hsample
    refine ⟨hbytes, ?_⟩
    cases trees with
    | nil => cases htrees.parsed
    | cons t trees =>
      cases htrees.parsed with
      | cons _ hnil =>
        cases hnil
        exact ⟨t, htrees⟩
  · intro k d s length file
    refine exists_compiles hb (List.range k.toNat) file ?_ ?_
      fun i => (isSample_program (d i) (s i) (length i) s!"m{i}").1
    · exact List.Nodup.map (fun i j hij => numbered_inj hij) List.nodup_range
    · intro i hi
      exact isMark_numbered (Nat.lt_trans (List.mem_range.mp hi) k.toNat_lt)

/-- For instance a program of three hundred bytes under the mark lib2. -/
theorem sample_programs_compile_lib2 :
    Budget.unlimited.check = none ∧ IsMark "lib2" ∧
      300 ≤ (program SplitMix.dice 300 "lib2" ⟨7⟩).1.utf8ByteSize ∧
      ∃ t, Compiles .unlimited [("a.src", (program SplitMix.dice 300 "lib2" ⟨7⟩).1)] [t] := by
  have hm : IsMark "lib2" := by decide +kernel
  have hb : Budget.unlimited.check = none := rfl
  exact ⟨hb, hm, (sample_programs_compile hb).1 SplitMix.dice ⟨7⟩ 300 "lib2" "a.src" hm⟩

end Sample

end ThreeAddress
