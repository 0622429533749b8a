import ThreeAddress.Proofs.Typing

namespace ThreeAddress

namespace Merged

/-- Complaints about declarations whose names are taken when their turn comes. -/
def again (i : Nat) : SymbolTable → List Declaration → List Fault
  | _, [] => []
  | t, d :: ds =>
    ((t.get? d.key).map fun first => ⟨i, duplicate d.site first.site⟩).toList ++
      again i (t.declareNew d.symbol) ds

/-- Declarations whose names are free when their turn comes. -/
def admitted : SymbolTable → List Declaration → List Declaration
  | _, [] => []
  | t, d :: ds =>
    (match t.get? d.key with
      | some _ => []
      | none => [d]) ++ admitted (t.declareNew d.symbol) ds

/-- Declarations that take part are admitted or complained about. -/
theorem merge_of_counts {t : SymbolTable} (i : Nat) {ds : List Declaration}
    (rest : List (Nat × Finding)) (hc : ∀ d ∈ ds, counts t d = true) :
    merge t (ds.map (i, Finding.declared ·) ++ rest) =
      let merged := merge (enrolled t ds) rest
      ⟨merged.symbols, (admitted t ds).map (⟨i, ·⟩) ++ merged.accepted,
        again i t ds ++ merged.faults⟩ := by
  induction ds generalizing t with
  | nil => rfl
  | cons d ds ih =>
    obtain ⟨hd, hds⟩ := List.forall_mem_cons.mp hc
    have hrest := ih fun e he => counts_declareNew d.symbol (hds e he)
    rw [List.map_cons, List.cons_append, merge, if_pos hd]
    cases hn : t.get? d.key with
    | some first =>
      rw [SymbolTable.declareNew_of_some (s := d.symbol) hn] at hrest
      have hsame : enrolled t (d :: ds) = enrolled t ds :=
        congrArg (enrolled · ds) (SymbolTable.declareNew_of_some (s := d.symbol) hn)
      simp only [enroll_of_some hn, hrest, hsame, admitted, again, hn,
        SymbolTable.declareNew_of_some (s := d.symbol) hn]
      rfl
    | none =>
      simp only [enroll_of_none hn, hrest, admitted, again, hn]
      rfl

/-- Declarations that take no part leave no trace. -/
theorem merge_of_not_counts {t : SymbolTable} (i : Nat) {ds : List Declaration}
    (rest : List (Nat × Finding)) (hc : ∀ d ∈ ds, counts t d = false) :
    merge t (ds.map (i, Finding.declared ·) ++ rest) = merge t rest := by
  induction ds with
  | nil => rfl
  | cons d ds ih =>
    obtain ⟨hd, hds⟩ := List.forall_mem_cons.mp hc
    rw [List.map_cons, List.cons_append, merge, if_neg (by rw [hd]; exact Bool.false_ne_true)]
    exact ih hds

theorem get?_enrolled_of_ne {t : SymbolTable} {ds : List Declaration} {x : String}
    (h : ∀ d ∈ ds, d.key ≠ x) : (enrolled t ds).get? x = t.get? x := by
  induction ds generalizing t with
  | nil => rfl
  | cons d ds ih =>
    obtain ⟨hd, hds⟩ := List.forall_mem_cons.mp h
    refine (ih hds).trans ?_
    rw [SymbolTable.get?_declareNew]
    simp [Declaration.symbol, Symbol.declared, hd]

end Merged

namespace Decl

theorem declarations_eq (d : Decl) : d.declarations = d.head :: d.declarations.tail := by
  cases d <;> rfl

theorem site_head (d : Decl) : d.head.site = d.name := by
  cases d <;> rfl

/-- What follows the head of a declaration are parameters. -/
theorem param_of_mem_tail {d : Decl} {e : Declaration} (h : e ∈ d.declarations.tail) :
    ∃ r q slot, d = .routine r ∧ q ∈ r.params ∧ e = .param r.name slot q.name q.type := by
  cases d with
  | routine r =>
    obtain ⟨⟨q, slot⟩, hq, rfl⟩ := List.mem_map.mp h
    exact ⟨r, q, slot, rfl, List.fst_mem_of_mem_zipIdx hq, rfl⟩
  | _ => cases h

theorem counts_tail {d : Decl} (t : SymbolTable) {e : Declaration} (h : e ∈ d.declarations.tail) :
    Merged.counts t e = ((t.get? d.name.lexeme).map (·.isFunctionAt d.name)).getD false := by
  obtain ⟨r, q, slot, rfl, -, rfl⟩ := param_of_mem_tail h
  rfl

theorem counts_head (d : Decl) (t : SymbolTable) : Merged.counts t d.head = true := by
  cases d <;> rfl

theorem colon_mem_key_tail {d : Decl} {e : Declaration} (h : e ∈ d.declarations.tail) :
    ':' ∈ e.key.toList := by
  obtain ⟨r, q, slot, rfl, -, rfl⟩ := param_of_mem_tail h
  exact Symbol.colon_mem_qualify _ _

end Decl

namespace Merged

/-- The part of a declaration that takes part in a batch: the head, and the parameters if the name
then stands for this function. -/
def part (t : SymbolTable) (d : Decl) : List Declaration :=
  d.head :: d.declarations.tail.filter (counts (t.declareNew d.head.symbol))

theorem merge_block (t : SymbolTable) (i : Nat) (d : Decl) (rest : List (Nat × Finding)) :
    merge t (d.declarations.map (i, Finding.declared ·) ++ rest) =
      let merged := merge (enrolled t (part t d)) rest
      ⟨merged.symbols, (admitted t (part t d)).map (⟨i, ·⟩) ++ merged.accepted,
        again i t (part t d) ++ merged.faults⟩ := by
  let t' := t.declareNew d.head.symbol
  have hhead := merge_of_counts i (d.declarations.tail.map (i, Finding.declared ·) ++ rest)
    (List.forall_mem_singleton.mpr (d.counts_head t))
  rw [d.declarations_eq]
  refine hhead.trans ?_
  -- Parameters of one function take part together or not at all.
  cases hc : ((t'.get? d.name.lexeme).map (·.isFunctionAt d.name)).getD false with
  | true =>
    have hall : ∀ e ∈ d.declarations.tail, counts t' e = true := fun e he =>
      (Decl.counts_tail t' he).trans hc
    have hpart : part t d = d.head :: d.declarations.tail :=
      congrArg _ (List.filter_eq_self.mpr hall)
    have htail := merge_of_counts i rest hall
    simp only [hpart]
    simp only [enrolled, List.foldl_cons, List.foldl_nil] at htail ⊢
    simp only [t'] at htail
    rw [htail]
    simp [admitted, again]
  | false =>
    have hnone : ∀ e ∈ d.declarations.tail, counts t' e = false := fun e he =>
      (Decl.counts_tail t' he).trans hc
    have hpart : part t d = [d.head] := by
      refine congrArg _ (List.filter_eq_nil_iff.mpr fun e he => ?_)
      rw [hnone e he]
      exact Bool.false_ne_true
    simp only [hpart]
    simp only [enrolled, List.foldl_cons, List.foldl_nil]
    rw [merge_of_not_counts i rest hnone]

end Merged

namespace Located

/-- The first declaration of a name. -/
def first? (ds : Located) (x : String) : Option (Nat × Decl) :=
  ds.find? fun d => d.2.name.lexeme = x

/-- The declarations that are the first of their names, behind those that are seen. -/
def winners : Located → Located → Located
  | _, [] => []
  | seen, x :: ds =>
    (match seen.first? x.2.name.lexeme with
      | some _ => []
      | none => [x]) ++ winners (seen ++ [x]) ds

theorem first?_append (ds es : Located) (x : String) :
    first? (ds ++ es) x = (ds.first? x).or (es.first? x) := List.find?_append

theorem first?_cons (d : Nat × Decl) (ds : Located) (x : String) :
    first? (d :: ds) x = if d.2.name.lexeme = x then some d else ds.first? x := by
  by_cases h : d.2.name.lexeme = x
  · simp [first?, h]
  · simp [first?, h]

theorem first?_singleton (d : Nat × Decl) (x : String) :
    first? [d] x = if d.2.name.lexeme = x then some d else none := first?_cons d [] x

theorem name_of_first? {ds : Located} {x : String} {d : Nat × Decl} (h : ds.first? x = some d) :
    d ∈ ds ∧ d.2.name.lexeme = x := by
  have hname := List.find?_some h
  exact ⟨List.mem_of_find?_eq_some h, of_decide_eq_true hname⟩

/-- A winner is the first declaration of its name. -/
theorem mem_winners_iff {seen ds : Located} {d : Nat × Decl} :
    d ∈ winners seen ds ↔ seen.first? d.2.name.lexeme = none ∧
      ds.first? d.2.name.lexeme = some d := by
  induction ds generalizing seen with
  | nil => simp [winners, first?]
  | cons x ds ih =>
    rw [winners, List.mem_append, ih, first?_append, first?_singleton, first?_cons,
      Option.or_eq_none_iff]
    by_cases hx : x.2.name.lexeme = d.2.name.lexeme
    · rw [hx]
      cases seen.first? d.2.name.lexeme with
      | some y => simp
      | none => simp [eq_comm]
    · have hne : d ≠ x := fun h => hx (h ▸ rfl)
      cases seen.first? x.2.name.lexeme with
      | some y => simp [hx]
      | none => simp [hx, hne]

/-- Colons are for the names of parameters. -/
def Plain (ds : Located) : Prop := ∀ d ∈ ds, ':' ∉ d.2.name.lexeme.toList

end Located

/-- The top-level names of a table are those of declarations, each with the first symbol. -/
def SymbolTable.Heads (t : SymbolTable) (seen : Located) : Prop :=
  ∀ x : String, ':' ∉ x.toList → t.get? x = (seen.first? x).map (·.2.head.symbol)

def Declaration.isParam : Declaration → Bool
  | .param _ _ _ _ => true
  | _ => false

namespace Decl

theorem isParam_head (d : Decl) : d.head.isParam = false := by
  cases d <;> rfl

theorem isParam_of_mem_tail {d : Decl} {e : Declaration} (h : e ∈ d.declarations.tail) :
    e.isParam = true := by
  obtain ⟨r, q, slot, -, -, rfl⟩ := param_of_mem_tail h
  rfl

end Decl

namespace Merged

variable {t : SymbolTable} {seen : Located}

theorem key_ne_of_mem_part {d : Decl} {e : Declaration} {x : String} (hx : ':' ∉ x.toList)
    (h : e ∈ (part t d).tail) : e.key ≠ x := by
  rintro rfl
  exact hx (Decl.colon_mem_key_tail (List.mem_of_mem_filter h))

theorem heads_part (h : t.Heads seen) (x : Nat × Decl) :
    (enrolled t (part t x.2)).Heads (seen ++ [x]) := by
  intro y hy
  have hparams : (enrolled t (part t x.2)).get? y = (t.declareNew x.2.head.symbol).get? y :=
    get?_enrolled_of_ne fun e he => key_ne_of_mem_part (t := t) (d := x.2) hy he
  rw [hparams, SymbolTable.get?_declareNew, h y hy, Located.first?_append,
    Located.first?_singleton, Option.map_or]
  congr 1
  have hname : x.2.head.symbol.name = x.2.name.lexeme := x.2.key_head
  rw [hname]
  split <;> rfl

theorem admitted_of_isParam (t : SymbolTable) {ds : List Declaration}
    (h : ∀ d ∈ ds, d.isParam = true) : ∀ d ∈ admitted t ds, d.isParam = true := by
  induction ds generalizing t with
  | nil => exact List.forall_mem_nil _
  | cons d ds ih =>
    obtain ⟨hd, hds⟩ := List.forall_mem_cons.mp h
    rw [admitted]
    refine List.forall_mem_append.mpr ⟨?_, ih _ hds⟩
    cases t.get? d.key with
    | some first => exact List.forall_mem_nil _
    | none => exact List.forall_mem_singleton.mpr hd

/-- Of a declaration, the head is accepted if it is the first of its name. -/
theorem heads_admitted (h : t.Heads seen) {d : Decl} (hd : ':' ∉ d.name.lexeme.toList) :
    (admitted t (part t d)).filter (!·.isParam) =
      match seen.first? d.name.lexeme with
      | some _ => []
      | none => [d.head] := by
  have hparams : ∀ e ∈ (part t d).tail, e.isParam = true := fun e he =>
    Decl.isParam_of_mem_tail (List.mem_of_mem_filter he)
  have hnone :
      (admitted (t.declareNew d.head.symbol) (part t d).tail).filter (!·.isParam) = [] := by
    refine List.filter_eq_nil_iff.mpr fun e he => ?_
    rw [admitted_of_isParam _ hparams e he]
    exact Bool.false_ne_true
  rw [part, admitted, List.filter_append]
  refine (congrArg (_ ++ ·) hnone).trans ?_
  rw [List.append_nil, d.key_head, h _ hd]
  cases seen.first? d.name.lexeme with
  | some first => rfl
  | none => simp [d.isParam_head]

/-- The table and the accepted declarations of a batch, by its first declarations. -/
theorem merge_heads {ds : Located} (h : t.Heads seen) (hds : ds.Plain) :
    (merge t ds.findings).symbols.Heads (seen ++ ds) ∧
      (merge t ds.findings).accepted.filter (!·.declaration.isParam) =
        (Located.winners seen ds).map fun x => ⟨x.1, x.2.head⟩ := by
  induction ds generalizing t seen with
  | nil =>
    rw [List.append_nil]
    exact ⟨h, rfl⟩
  | cons x ds ih =>
    obtain ⟨hx, hds⟩ := List.forall_mem_cons.mp hds
    obtain ⟨hsymbols, haccepted⟩ := ih (heads_part h x) hds
    have hblock := merge_block t x.1 x.2 (Located.findings ds)
    have hfindings : Located.findings (x :: ds) =
        x.2.declarations.map (x.1, Finding.declared ·) ++ Located.findings ds := rfl
    rw [hfindings, hblock]
    refine ⟨by simpa using hsymbols, ?_⟩
    simp only [List.filter_append, haccepted, Located.winners, List.map_append]
    congr 1
    rw [List.filter_map]
    refine (congrArg (List.map _) (heads_admitted h hx)).trans ?_
    cases seen.first? x.2.name.lexeme <;> rfl

end Merged

end ThreeAddress
