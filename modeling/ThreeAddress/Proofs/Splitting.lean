import ThreeAddress.Proofs.Concatenation
import ThreeAddress.Proofs.Likeness
import ThreeAddress.Proofs.Newline
import ThreeAddress.Proofs.Symbols

namespace ThreeAddress

namespace Code

variable (m : Site → Site)

theorem value_move {t : Token} {a : Operand} (h : value t = .ok a) : value (t.move m) = .ok a := by
  unfold value at h ⊢
  split at h
  · next hk =>
    cases h
    exact if_pos hk
  · next hk =>
    rw [if_neg (show ¬(t.move m).kind = .ident from hk)]
    split at h
    · next o ho =>
      have ho' : Operand.ofLiteral? (t.move m) = some o := ho
      rw [ho']
      exact h
    · cases h

theorem call_move {dest : Option Operand} {f : Token} {args : List Token} {code : List Instruction}
    (h : call dest f args = .ok code) :
    call dest (f.move m) (args.map (Token.move m)) = .ok code := by
  obtain ⟨params, hparams, h⟩ := bind_eq_ok.mp h
  cases h
  have hargs : (args.map (Token.move m)).mapM (fun a => (value a).map Instruction.param) =
      .ok (params.map id) := by
    refine mapM_map_ok (fun a x ha => ?_) hparams
    obtain ⟨o, ho, rfl⟩ := map_eq_ok.mp ha
    rw [value_move m ho]
    rfl
  rw [call, hargs, List.map_id, List.length_map]
  rfl

theorem spill_move {e : Expr} {temps : Nat} {x : Operand × List Instruction × Nat}
    (hinto : ∀ dest temps x, into e dest temps = .ok x → into (e.move m) dest temps = .ok x)
    (h : spill e temps (into e) = .ok x) :
    spill (e.move m) temps (into (e.move m)) = .ok x := by
  cases e with
  | literal t =>
    obtain ⟨a, ha, rfl⟩ := map_eq_ok.mp h
    rw [Expr.move, spill, value_move m ha]
    rfl
  | name t =>
    obtain ⟨a, ha, rfl⟩ := map_eq_ok.mp h
    rw [Expr.move, spill, value_move m ha]
    rfl
  | call f args =>
    obtain ⟨y, hy, h⟩ := bind_eq_ok.mp h
    cases h
    exact bind_eq_ok.mpr ⟨y, hinto _ _ _ hy, rfl⟩
  | binary op t lhs rhs =>
    obtain ⟨y, hy, h⟩ := bind_eq_ok.mp h
    cases h
    exact bind_eq_ok.mpr ⟨y, hinto _ _ _ hy, rfl⟩

theorem into_move {e : Expr} {dest : Operand} {temps : Nat} {x : List Instruction × Nat}
    (h : into e dest temps = .ok x) : into (e.move m) dest temps = .ok x := by
  induction e generalizing dest temps x with
  | literal t =>
    obtain ⟨a, ha, rfl⟩ := map_eq_ok.mp h
    rw [Expr.move, into, value_move m ha]
    rfl
  | name t =>
    obtain ⟨a, ha, rfl⟩ := map_eq_ok.mp h
    rw [Expr.move, into, value_move m ha]
    rfl
  | call f args =>
    obtain ⟨code, hcode, rfl⟩ := map_eq_ok.mp h
    rw [Expr.move, into, call_move m hcode]
    rfl
  | binary op t lhs rhs hl hr =>
    obtain ⟨l, hleft, h⟩ := bind_eq_ok.mp h
    obtain ⟨r, hright, h⟩ := bind_eq_ok.mp h
    cases h
    rw [Expr.move, into, spill_move m (fun _ _ _ => hl) hleft]
    refine bind_eq_ok.mpr ⟨l, rfl, bind_eq_ok.mpr ⟨r, ?_, rfl⟩⟩
    exact spill_move m (fun _ _ _ => hr) hright

variable {symbols : SymbolTable}

/-- The blame for a missing type does not matter when there is one. -/
theorem zero_eq_ok {s : Option Symbol} {blame : Token} {a : Operand} :
    zero s blame = .ok a ↔ ∃ ty, s.bind (·.ty) = some ty ∧ a = .zero ty := by
  unfold zero
  cases s.bind (·.ty) with
  | none => simp
  | some ty => simp [eq_comm]

theorem statement_move {func : Token} {s : Stmt} {temps : Nat} {x : List Instruction × Nat}
    (h : statement symbols func s temps = .ok x) :
    statement symbols (func.move m) (s.move m) temps = .ok x := by
  cases s with
  | «local» name type init =>
    cases init with
    | none =>
      obtain ⟨a, ha, h⟩ := bind_eq_ok.mp h
      cases h
      exact bind_eq_ok.mpr ⟨a, zero_eq_ok.mpr (zero_eq_ok.mp ha), rfl⟩
    | some e =>
      rw [statement, store_eq_into] at h
      rw [Stmt.move, Option.map_some, statement, store_eq_into]
      exact into_move m h
  | assign target e =>
    rw [statement, store_eq_into] at h
    rw [Stmt.move, statement, store_eq_into]
    exact into_move m h
  | call f args =>
    obtain ⟨code, hcode, h⟩ := bind_eq_ok.mp h
    cases h
    exact bind_eq_ok.mpr ⟨code, call_move m hcode, rfl⟩
  | ret keyword e =>
    obtain ⟨y, hy, h⟩ := bind_eq_ok.mp h
    cases h
    rw [operand_eq_spill] at hy
    refine bind_eq_ok.mpr ⟨y, ?_, rfl⟩
    rw [operand_eq_spill]
    exact spill_move m (fun _ _ _ => into_move m) hy

theorem statements_move {func : Token} {ss : List Stmt} {temps : Nat} {code : List Instruction}
    (h : statements symbols func ss temps = .ok code) :
    statements symbols (func.move m) (ss.map (Stmt.move m)) temps = .ok code := by
  induction ss generalizing temps code with
  | nil => exact h
  | cons s ss ih =>
    obtain ⟨x, hx, h⟩ := bind_eq_ok.mp h
    obtain ⟨more, hmore, h⟩ := bind_eq_ok.mp h
    cases h
    exact bind_eq_ok.mpr ⟨x, statement_move m hx, bind_eq_ok.mpr ⟨more, ih hmore, rfl⟩⟩

/-- The code of a declaration does not depend on places. -/
theorem decl_move {d : Decl} {code : List Instruction} (h : decl symbols d = .ok code) :
    decl symbols (d.move m) = .ok code := by
  cases d with
  | «alias» name target => exact h
  | «global» name type init =>
    obtain ⟨a, ha, h⟩ := bind_eq_ok.mp h
    refine bind_eq_ok.mpr ⟨a, zero_eq_ok.mpr (zero_eq_ok.mp ha), ?_⟩
    cases init with
    | none => exact h
    | some t =>
      obtain ⟨v, hv, h⟩ := bind_eq_ok.mp h
      exact bind_eq_ok.mpr ⟨v, value_move m hv, h⟩
  | routine r =>
    obtain ⟨body, hbody, h⟩ := bind_eq_ok.mp h
    cases h
    refine bind_eq_ok.mpr ⟨body, statements_move m hbody, ?_⟩
    simp [Routine.move, Param.move, Operand.ofToken, Function.comp_def]
    rfl

/-- Statements read nothing of a table but the types of their locals. -/
theorem statements_congr {symbols symbols' : SymbolTable} {func : Token} {ss : List Stmt}
    (h : ∀ v ∈ ss.flatMap Stmt.declared, (symbols.local? func.lexeme v.1.lexeme).bind (·.ty) =
      (symbols'.local? func.lexeme v.1.lexeme).bind (·.ty)) (temps : Nat) :
    statements symbols func ss temps = statements symbols' func ss temps := by
  induction ss generalizing temps with
  | nil => rfl
  | cons s ss ih =>
    rw [List.flatMap_cons, List.forall_mem_append] at h
    have hs : statement symbols func s temps = statement symbols' func s temps := by
      cases s with
      | «local» name type init =>
        cases init with
        | none =>
          have hname := h.1 (name, type) (List.mem_singleton_self _)
          simp only [statement, zero, hname]
        | some e => rfl
      | _ => rfl
    have hss (temps : Nat) := ih h.2 temps
    simp only [statements, hs, hss]

/-- Declarations that are alike have the same code in a program and in one that has its like. -/
theorem decl_alike {symbols symbols' : SymbolTable} {p q : Program} (h : p.Within q)
    (hq : q.WellFormed) (hs : symbols.Serves p) (hs' : symbols'.Serves q) {d d' : Decl}
    (hd : d ∈ p) (hd' : d' ∈ q) (hlike : d.move .nowhere = d'.move .nowhere)
    {code code' : List Instruction} (hc : decl symbols d = .ok code)
    (hc' : decl symbols' d' = .ok code') : code = code' := by
  have hmoved := decl_move .nowhere hc
  have hmoved' := decl_move .nowhere hc'
  rw [← hlike] at hmoved'
  suffices heq : decl symbols (d.move .nowhere) = decl symbols' (d.move .nowhere) from
    Except.ok.inj (hmoved.symm.trans (heq.trans hmoved'))
  cases d with
  | «alias» name target => rfl
  | «global» name type init =>
    cases d' with
    | «global» name' type' init' =>
      obtain ⟨hname, htype, -⟩ := Decl.global.inj hlike
      have hname : name.Like name' := hname
      obtain ⟨s, ty, hget, hty, ht⟩ := hs.globals hd
      obtain ⟨s', ty', hget', hty', ht'⟩ := hs'.globals hd'
      obtain rfl := hq.denotes_unique (ht.within h htype) ht'
      rw [← hname.lexeme] at hget'
      simp only [Decl.move, decl, global, zero, Token.lexeme_move, hget, hget', Option.bind_some, hty,
        hty']
    | _ => cases hlike
  | routine r =>
    cases d' with
    | routine r' =>
      obtain ⟨hname, -, -, hbody⟩ := Routine.mk.inj (Decl.routine.inj hlike)
      have hname : r.name.Like r'.name := hname
      have hlocals := congrArg (List.flatMap Stmt.declared) hbody
      rw [Stmt.declared_move, Stmt.declared_move] at hlocals
      have hstatements :
          statements symbols (r.name.move .nowhere) (r.body.map (Stmt.move .nowhere)) 0 =
            statements symbols' (r.name.move .nowhere) (r.body.map (Stmt.move .nowhere)) 0 := by
        refine statements_congr (fun v hv => ?_) 0
        rw [Stmt.declared_move] at hv
        obtain ⟨x, hx, rfl⟩ := List.mem_map.mp hv
        rw [hlocals] at hv
        obtain ⟨x', hx', heq⟩ := List.mem_map.mp hv
        obtain ⟨hvar, htype⟩ := Prod.mk.inj heq
        have hvar : x'.1.Like x.1 := hvar
        have htype : x'.2.Like x.2 := htype
        obtain ⟨s, ty, hget, hty, ht⟩ := hs.locals hd x hx
        obtain ⟨s', ty', hget', hty', ht'⟩ := hs'.locals hd' x' hx'
        obtain rfl := hq.denotes_unique (ht.within h htype.symm) ht'
        rw [← hname.lexeme, hvar.lexeme] at hget'
        simp only [Prod.map_fst, Token.lexeme_move, hget, hget', Option.bind_some, hty, hty']
      simp only [Decl.move, decl, routine, Routine.move, hstatements]
    | _ => cases hlike

/-- The same for declarations in order. -/
theorem mapM_decl_alike {symbols symbols' : SymbolTable} {p q : Program} (h : p.Within q)
    (hq : q.WellFormed) (hs : symbols.Serves p) (hs' : symbols'.Serves q) {ds ds' : List Decl}
    (hds : ∀ d ∈ ds, d ∈ p) (hds' : ∀ d ∈ ds', d ∈ q) (hlike : Program.Alike ds ds')
    {codes codes' : List (List Instruction)} (hc : ds.mapM (decl symbols) = .ok codes)
    (hc' : ds'.mapM (decl symbols') = .ok codes') : codes = codes' := by
  induction ds generalizing ds' codes codes' with
  | nil =>
    obtain rfl : ds' = [] := List.map_eq_nil_iff.mp hlike.symm
    exact Except.ok.inj (hc.symm.trans hc')
  | cons d ds ih =>
    obtain ⟨d', ds', rfl, hd, hrest⟩ := List.map_eq_cons_iff.mp hlike.symm
    rw [List.forall_mem_cons] at hds hds'
    rw [List.mapM_cons] at hc hc'
    obtain ⟨code, hcode, hc⟩ := bind_eq_ok.mp hc
    obtain ⟨code', hcode', hc'⟩ := bind_eq_ok.mp hc'
    obtain ⟨more, hmore, hc⟩ := bind_eq_ok.mp hc
    obtain ⟨more', hmore', hc'⟩ := bind_eq_ok.mp hc'
    cases hc
    cases hc'
    rw [decl_alike h hq hs hs' hds.1 hds'.1 hd.symm hcode hcode',
      ih hds.2 hds'.2 hrest.symm hmore hmore']

end Code

/-- The declarations of two files in one. -/
theorem Tree.program_append {tree₁ tree₂ : Tree} {p₁ p₂ : Program} (h₁ : tree₁.program = .ok p₁)
    (h₂ : tree₂.program = .ok p₂) {m₁ m₂ : Site → Site} {items : List Node} {eof : Token}
    (hitems : tree₁.items.map (Node.move m₁) = items ++ [Node.leaf .finished eof]) (file : String) :
    Tree.program ⟨file, items ++ tree₂.items.map (Node.move m₂)⟩ =
      .ok (p₁.map (Decl.move m₁) ++ p₂.map (Decl.move m₂)) := by
  have hfilter (m : Site → Site) (ns : List Node) :
      (ns.map (Node.move m)).filter (fun n => n.kind != .finished) =
        (ns.filter fun n => n.kind != .finished).map (Node.move m) := by
    simp [List.filter_map, Function.comp_def]
  have hfront : items.filter (fun n => n.kind != .finished) =
      tree₁.declarations.map (Node.move m₁) := by
    rw [Tree.declarations, ← hfilter, hitems, List.filter_append]
    simp [Node.kind]
  rw [Tree.program, Tree.declarations, List.filter_append, hfront, hfilter, List.mapM_append,
    Decl.mapM_ofNode_move h₁]
  have hback := Decl.mapM_ofNode_move (m := m₂) h₂
  rw [Tree.declarations] at hback
  rw [hback]
  rfl

/-- A batch is valid exactly when the programs of its trees are well formed together. -/
theorem Analysis.valid_iff_of_program {outcomes : List (Option Tree)}
    (h : ∀ t, some t ∈ outcomes → t.FromSource) {ps : List Program}
    (hps : outcomes.reduceOption.mapM Tree.program = .ok ps) :
    (ofOutcomes outcomes).valid = true ↔ Program.WellFormed ps.flatten := by
  obtain ⟨b, hanalysis, htrees⟩ := ReadFile.exists_batch h
  rw [htrees, ReadFile.mapM_program] at hps
  obtain rfl := Except.ok.inj hps
  rw [hanalysis, valid_iff_no_faults, ReadFile.no_faults_iff, ReadFile.program_located]
  rfl

section
variable {outcomes outcomes' : List (Option Tree)} (h : ∀ t, some t ∈ outcomes → t.FromSource)
  (h' : ∀ t, some t ∈ outcomes' → t.FromSource) {ps qs : List Program}
  (hps : outcomes.reduceOption.mapM Tree.program = .ok ps)
  (hqs : outcomes'.reduceOption.mapM Tree.program = .ok qs)
  (hlike : Program.Alike ps.flatten qs.flatten)
include h h' hps hqs hlike

/-- Batches with programs that are alike are valid together. -/
theorem Analysis.valid_iff_of_alike :
    (ofOutcomes outcomes).valid = true ↔ (ofOutcomes outcomes').valid = true := by
  rw [valid_iff_of_program h hps, valid_iff_of_program h' hqs]
  exact ⟨fun hp => hp.alike hlike, fun hq => hq.alike hlike.symm⟩

/-- Their declarations have the same code, each with the symbols of its own batch. -/
theorem Analysis.codes_of_alike (hv : (ofOutcomes outcomes).valid = true)
    {codes codes' : List (List Instruction)}
    (hc : ps.flatten.mapM (Code.decl (ofOutcomes outcomes).symbols) = .ok codes)
    (hc' : qs.flatten.mapM (Code.decl (ofOutcomes outcomes').symbols) = .ok codes') :
    codes = codes' := by
  have hv' := (valid_iff_of_alike h h' hps hqs hlike).mp hv
  obtain ⟨ps', hps', -, -, hserves, -⟩ := program_of_valid h hv
  obtain rfl := Except.ok.inj (hps.symm.trans hps')
  obtain ⟨qs', hqs', hwf, -, hserves', -⟩ := program_of_valid h' hv'
  obtain rfl := Except.ok.inj (hqs.symm.trans hqs')
  exact Code.mapM_decl_alike hlike.within hwf hserves hserves' (fun _ hd => hd) (fun _ hd => hd)
    hlike hc hc'

end

/-- Two files that lex and parse do so in one file, which has the declarations of both. -/
theorem exists_joined {budget : Budget} {file₁ file₂ : String} {s₁ s₂ : List UInt8}
    {ts₁ ts₂ : List Token} {tree₁ tree₂ : Tree}
    (hl₁ : tokenize budget file₁ (.ofBytes s₁) = .ok ts₁)
    (hp₁ : parse Grammar.table ts₁ = .ok tree₁)
    (hl₂ : tokenize budget file₂ (.ofBytes s₂) = .ok ts₂)
    (hp₂ : parse Grammar.table ts₂ = .ok tree₂) (file : String) :
    ∃ ts tree p₁ p₂ q, tokenize budget file (.ofBytes (s₁ ++ Run.newline :: s₂)) = .ok ts ∧
      parse Grammar.table ts = .ok tree ∧ tree₁.program = .ok p₁ ∧ tree₂.program = .ok p₂ ∧
      tree.program = .ok q ∧ Program.Alike (p₁ ++ p₂) q := by
  obtain ⟨us, eof, rfl, heof, hus, hl⟩ := tokenize_append hl₁ hl₂ file
  obtain ⟨items, label, hitems, hp⟩ := parse_append hus heof hp₁ hp₂ (Site.down file 0)
    (Site.down file (1 + s₁.count Run.newline))
  obtain ⟨f₁, hf₁, -⟩ := Tree.exists_phrase hl₁ hp₁
  obtain ⟨f₂, hf₂, -⟩ := Tree.exists_phrase hl₂ hp₂
  have hprogram₁ := Phrase.File.program_of_items hf₁
  have hprogram₂ := Phrase.File.program_of_items hf₂
  refine ⟨_, _, _, _, _, hl, hp, hprogram₁, hprogram₂,
    Tree.program_append hprogram₁ hprogram₂ hitems label, ?_⟩
  exact (Program.alike_move _ _).append (Program.alike_move _ _)

theorem Tree.FromSource.exists_codes {t : Tree} (h : t.FromSource) {p : Program}
    (hp : t.program = .ok p) {symbols : SymbolTable} {code : List Instruction}
    (hc : t.emit Phase.table symbols = .ok code) :
    ∃ codes, p.mapM (Code.decl symbols) = .ok codes ∧ code = codes.flatten := by
  obtain ⟨budget, file, s, ts, hl, hparse⟩ := h
  obtain ⟨f, hitems, -⟩ := Tree.exists_phrase hl hparse
  obtain rfl := Except.ok.inj (hp.symm.trans (Phrase.File.program_of_items hitems))
  rw [Tree.emit_eq symbols hitems] at hc
  obtain ⟨codes, hcodes, rfl⟩ := map_eq_ok.mp hc
  exact ⟨codes, hcodes, rfl⟩

/-- Two files and the one file that has both, a newline between them: one batch is valid exactly
when the other is, and then the code of the one file is that of the first file followed by that of
the second. -/
theorem splitting_keeps_validity_and_code {budget : Budget} {file₁ file₂ : String}
    {s₁ s₂ : List UInt8} {ts₁ ts₂ : List Token} {tree₁ tree₂ : Tree}
    (hl₁ : tokenize budget file₁ (.ofBytes s₁) = .ok ts₁)
    (hp₁ : parse Grammar.table ts₁ = .ok tree₁)
    (hl₂ : tokenize budget file₂ (.ofBytes s₂) = .ok ts₂)
    (hp₂ : parse Grammar.table ts₂ = .ok tree₂) (file : String) :
    ∃ ts tree, tokenize budget file (.ofBytes (s₁ ++ Run.newline :: s₂)) = .ok ts ∧
      parse Grammar.table ts = .ok tree ∧
      ((Analysis.ofOutcomes [some tree₁, some tree₂]).valid = true ↔
        (Analysis.ofOutcomes [some tree]).valid = true) ∧
      ((Analysis.ofOutcomes [some tree₁, some tree₂]).valid = true → ∃ code₁ code₂,
        tree₁.emit Phase.table (Analysis.ofOutcomes [some tree₁, some tree₂]).symbols = .ok code₁ ∧
        tree₂.emit Phase.table (Analysis.ofOutcomes [some tree₁, some tree₂]).symbols = .ok code₂ ∧
        tree.emit Phase.table (Analysis.ofOutcomes [some tree]).symbols = .ok (code₁ ++ code₂)) := by
  obtain ⟨ts, tree, p₁, p₂, q, hl, hp, hprogram₁, hprogram₂, hprogram, hlike⟩ :=
    exists_joined hl₁ hp₁ hl₂ hp₂ file
  have htree₁ : tree₁.FromSource := ⟨_, _, _, _, hl₁, hp₁⟩
  have htree₂ : tree₂.FromSource := ⟨_, _, _, _, hl₂, hp₂⟩
  have htree : tree.FromSource := ⟨_, _, _, _, hl, hp⟩
  have hbatch : ∀ t, some t ∈ [some tree₁, some tree₂] → t.FromSource := by
    simp [htree₁, htree₂]
  have hbatch' : ∀ t, some t ∈ [some tree] → t.FromSource := by simp [htree]
  have hprograms : [some tree₁, some tree₂].reduceOption.mapM Tree.program = .ok [p₁, p₂] := by
    simp only [List.reduceOption_cons_of_some, List.reduceOption_nil, List.mapM_cons, hprogram₁,
      hprogram₂]
    rfl
  have hprograms' : [some tree].reduceOption.mapM Tree.program = .ok [q] := by
    simp only [List.reduceOption_cons_of_some, List.reduceOption_nil, List.mapM_cons, hprogram]
    rfl
  have hlikes : Program.Alike [p₁, p₂].flatten [q].flatten := by simpa using hlike
  have hvalid := Analysis.valid_iff_of_alike hbatch hbatch' hprograms hprograms' hlikes
  refine ⟨ts, tree, hl, hp, hvalid, fun hv => ?_⟩
  obtain ⟨code₁, hcode₁⟩ := Analysis.emit_ok hbatch hv (t := tree₁) (by simp)
  obtain ⟨code₂, hcode₂⟩ := Analysis.emit_ok hbatch hv (t := tree₂) (by simp)
  obtain ⟨code, hcode⟩ := Analysis.emit_ok hbatch' (hvalid.mp hv) (t := tree) (by simp)
  obtain ⟨codes₁, hcodes₁, rfl⟩ := htree₁.exists_codes hprogram₁ hcode₁
  obtain ⟨codes₂, hcodes₂, rfl⟩ := htree₂.exists_codes hprogram₂ hcode₂
  obtain ⟨codes, hcodes, rfl⟩ := htree.exists_codes hprogram hcode
  have hboth : [p₁, p₂].flatten.mapM
      (Code.decl (Analysis.ofOutcomes [some tree₁, some tree₂]).symbols) =
        .ok (codes₁ ++ codes₂) := by
    simp only [List.flatten_cons, List.flatten_nil, List.append_nil, List.mapM_append, hcodes₁,
      hcodes₂]
    rfl
  have hone : [q].flatten.mapM (Code.decl (Analysis.ofOutcomes [some tree]).symbols) = .ok codes := by
    simpa using hcodes
  have hsame := Analysis.codes_of_alike hbatch hbatch' hprograms hprograms' hlikes hv hboth hone
  refine ⟨codes₁.flatten, codes₂.flatten, hcode₁, hcode₂, ?_⟩
  rw [← List.flatten_append, hsame]
  exact hcode

/-- The first file uses a global of the second and ends inside a comment. -/
theorem splitting_keeps_validity_and_code_open_comment :
    let front := "type n = int; func f(x: n): n { return x + g; } // n".toUTF8.toList
    let back := "var g: n = 2; func h(): n { var y: n; y = f(g) * g; return y; }".toUTF8.toList
    ∃ ts₁ ts₂ ts tree₁ tree₂ tree code₁ code₂,
      tokenize .unlimited "a" (.ofBytes front) = .ok ts₁ ∧ parse Grammar.table ts₁ = .ok tree₁ ∧
      tokenize .unlimited "b" (.ofBytes back) = .ok ts₂ ∧ parse Grammar.table ts₂ = .ok tree₂ ∧
      tokenize .unlimited "c" (.ofBytes (front ++ Run.newline :: back)) = .ok ts ∧
      parse Grammar.table ts = .ok tree ∧ (Analysis.ofOutcomes [some tree]).valid = true ∧
      tree₁.emit Phase.table (Analysis.ofOutcomes [some tree₁, some tree₂]).symbols = .ok code₁ ∧
      tree₂.emit Phase.table (Analysis.ofOutcomes [some tree₁, some tree₂]).symbols = .ok code₂ ∧
      tree.emit Phase.table (Analysis.ofOutcomes [some tree]).symbols = .ok (code₁ ++ code₂) := by
  rw [Text.toList_toUTF8_ofList, Text.toList_toUTF8_ofList]
  intro front back
  have hrun : ((tokenize .unlimited "a" (.ofBytes front)).toOption.bind fun ts₁ =>
      (parse Grammar.table ts₁).toOption.bind fun tree₁ =>
        (tokenize .unlimited "b" (.ofBytes back)).toOption.bind fun ts₂ =>
          (parse Grammar.table ts₂).toOption.map fun tree₂ =>
            (Analysis.ofOutcomes [some tree₁, some tree₂]).valid) = some true := by
    decide +kernel
  obtain ⟨ts₁, hl₁, hrun⟩ := Option.bind_eq_some_iff.mp hrun
  obtain ⟨tree₁, hp₁, hrun⟩ := Option.bind_eq_some_iff.mp hrun
  obtain ⟨ts₂, hl₂, hrun⟩ := Option.bind_eq_some_iff.mp hrun
  obtain ⟨tree₂, hp₂, hv⟩ := Option.map_eq_some_iff.mp hrun
  rw [toOption_eq_some] at hl₁ hp₁ hl₂ hp₂
  obtain ⟨ts, tree, hl, hp, hvalid, hcode⟩ :=
    splitting_keeps_validity_and_code hl₁ hp₁ hl₂ hp₂ "c"
  obtain ⟨code₁, code₂, hcode₁, hcode₂, hcodes⟩ := hcode hv
  exact ⟨ts₁, ts₂, ts, tree₁, tree₂, tree, code₁, code₂, hl₁, hp₁, hl₂, hp₂, hl, hp,
    hvalid.mp hv, hcode₁, hcode₂, hcodes⟩

end ThreeAddress
