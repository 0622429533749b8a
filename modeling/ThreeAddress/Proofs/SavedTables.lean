import ThreeAddress.Proofs.JsonText
import ThreeAddress.Proofs.Results
import ThreeAddress.Table.File

namespace ThreeAddress

namespace Enumerated

/-- The member of an index has it, if no member is listed twice. -/
theorem index_of_ofIndex? {α : Type} [Enumerated α] (hall : (all : List α).Nodup) {i : Nat} {a : α}
    (h : ofIndex? i = some a) : index a = i := by
  have hsame : (all : List α)[index a]? = (all : List α)[i]? := (all_index a).trans h.symm
  exact (List.getElem?_inj (index_lt_count a) hall).mp hsame

/-- A list with the value of each member at its index has the values of all members in order. -/
theorem map_eq {α β : Type} [Enumerated α] (hall : (all : List α).Nodup) {xs : List β} {f : α → β}
    (hlength : xs.length = count α) (h : ∀ a, xs[index a]? = some (f a)) :
    (all : List α).map f = xs := by
  apply List.ext_getElem
  · rw [List.length_map, hlength, count]
  · intro i hi hi'
    rw [List.length_map] at hi
    have ha : ofIndex? i = some ((all : List α)[i]) := List.getElem?_eq_getElem hi
    have hx := h (all : List α)[i]
    rw [index_of_ofIndex? hall ha, List.getElem?_eq_getElem hi'] at hx
    rw [List.getElem_map]
    exact (Option.some.inj hx).symm

theorem nodup_kinds : (all : List TokenKind).Nodup := by decide +kernel

theorem nodup_states : (all : List State).Nodup := by decide +kernel

theorem nodup_phases : (all : List Phase).Nodup := by decide +kernel

end Enumerated

namespace Table

variable {ρ κ τ : Type} [Enumerated ρ] [Enumerated κ] [Enumerated τ]

/-- Rows that are full and valid, with the table they write: a pair leads on just when its cell is
no `noEntry`, and then to the state that the cell numbers. -/
structure WrittenBy (t : Table ρ κ τ) (height width : Nat) (rows : List (List Nat)) : Prop where
  height : rows.length = height
  width : ∀ row ∈ rows, row.length = width
  cells : ∀ row ∈ rows, ∀ cell ∈ row, cell = noEntry ∨ ∃ s : τ, cell = Enumerated.index s
  next : ∀ r k, ∃ row cell, rows[Enumerated.index r]? = some row ∧
    row[Enumerated.index k]? = some cell ∧ (t.next r k = none ↔ cell = noEntry) ∧
    ∀ s, t.next r k = some s ↔ cell = Enumerated.index s

omit [Enumerated ρ] [Enumerated κ] [Enumerated τ] in
theorem badCell?_eq_none {states : Nat} {rows : List (List Nat)} :
    badCell? states rows = none ↔ ∀ row ∈ rows, ∀ cell ∈ row, cell = noEntry ∨ cell < states := by
  have hcell (v : Nat) :
      ¬(v != noEntry && decide (states ≤ v)) = true ↔ v = noEntry ∨ v < states := by
    simp only [Bool.and_eq_true, bne_iff_ne, decide_eq_true_eq]
    omega
  rw [badCell?, List.find?_eq_none]
  constructor
  · intro h row hrow v hv
    obtain ⟨i, hi⟩ := List.mem_iff_getElem?.mp hrow
    obtain ⟨j, hj⟩ := List.mem_iff_getElem?.mp hv
    refine (hcell v).mp (h (i, j, v) (List.mem_flatMap.mpr ⟨(row, i), ?_, ?_⟩))
    · exact List.mk_mem_zipIdx_iff_getElem?.mpr hi
    · exact List.mem_map.mpr ⟨(v, j), List.mk_mem_zipIdx_iff_getElem?.mpr hj, rfl⟩
  · intro h x hx
    obtain ⟨⟨row, i⟩, hrow, hx⟩ := List.mem_flatMap.mp hx
    obtain ⟨⟨v, j⟩, hv, rfl⟩ := List.mem_map.mp hx
    have hrow := List.mem_of_getElem? (List.mk_mem_zipIdx_iff_getElem?.mp hrow)
    have hv := List.mem_of_getElem? (List.mk_mem_zipIdx_iff_getElem?.mp hv)
    exact (hcell v).mpr (h row hrow v hv)

theorem ofRows_eq_ok {role : TableRole} {rows : List (List Nat)} {t : Table ρ κ τ} :
    ofRows role rows = .ok t ↔ rows.length = Enumerated.count ρ ∧
      (∀ row ∈ rows, ∀ cell ∈ row, cell = noEntry ∨ cell < Enumerated.count τ) ∧
      ∀ r k, t.next r k =
        (rows[Enumerated.index r]?.bind (·[Enumerated.index k]?)).bind ofCell := by
  rw [← badCell?_eq_none, ofRows]
  split
  · next hlength => exact ⟨nofun, fun h => absurd h.1 hlength⟩
  · next hlength =>
    split
    · next hbad => exact ⟨nofun, fun h => by rw [hbad] at h; cases h.2.1⟩
    · next hbad =>
      constructor
      · rintro ⟨⟩
        exact ⟨not_not.mp hlength, hbad, fun r k => rfl⟩
      · rintro ⟨-, -, hnext⟩
        obtain ⟨next⟩ := t
        congr
        funext r k
        exact (hnext r k).symm

section
variable (hsmall : Enumerated.count τ ≤ noEntry)
include hsmall

omit [Enumerated ρ] [Enumerated κ]

theorem index_ne_noEntry (s : τ) : Enumerated.index s ≠ noEntry :=
  Nat.ne_of_lt (Nat.lt_of_lt_of_le (Enumerated.index_lt_count s) hsmall)

theorem ofCell_cellOf (x : Option τ) : ofCell (cellOf x) = x := by
  cases x with
  | none => rfl
  | some s => rw [cellOf, ofCell, if_neg (index_ne_noEntry hsmall s), Enumerated.ofIndex?_index]

/-- Written out, a table is read as itself. -/
theorem ofRows_rows [Enumerated ρ] [Enumerated κ] (role : TableRole) (t : Table ρ κ τ) :
    ofRows role t.rows = .ok t := by
  refine ofRows_eq_ok.mpr ⟨t.length_rows, fun row hrow cell hcell => ?_, fun r k => ?_⟩
  · obtain ⟨r, -, rfl⟩ := List.mem_map.mp hrow
    obtain ⟨k, -, rfl⟩ := List.mem_map.mp hcell
    cases t.next r k with
    | none => exact .inl rfl
    | some s => exact .inr (Enumerated.index_lt_count s)
  · simp [rows, Enumerated.all_index, ofCell_cellOf hsmall]

/-- A valid cell leads on just when it is no `noEntry`, and then to the state that it numbers. -/
theorem ofCell_iff (hall : (Enumerated.all : List τ).Nodup) {cell : Nat}
    (hvalid : cell = noEntry ∨ cell < Enumerated.count τ) :
    (ofCell cell = (none : Option τ) ↔ cell = noEntry) ∧
      ∀ s : τ, ofCell cell = some s ↔ cell = Enumerated.index s := by
  by_cases hno : cell = noEntry
  · subst hno
    refine ⟨by simp [ofCell], fun s => ⟨by simp [ofCell], fun hs => ?_⟩⟩
    exact absurd hs.symm (index_ne_noEntry hsmall s)
  · have hlt : cell < Enumerated.count τ := hvalid.resolve_left hno
    rw [ofCell, if_neg hno]
    refine ⟨⟨fun hs => ?_, fun hs => absurd hs hno⟩, fun s => ⟨fun hs => ?_, fun hs => ?_⟩⟩
    · exact absurd hlt (Nat.not_lt.mpr (List.getElem?_eq_none_iff.mp hs))
    · exact (Enumerated.index_of_ofIndex? hall hs).symm
    · rw [hs, Enumerated.ofIndex?_index]

/-- Rows of the right width that are accepted are full and valid. -/
theorem writtenBy_of_ofRows [Enumerated ρ] [Enumerated κ] {role : TableRole}
    {rows : List (List Nat)} {t : Table ρ κ τ} (hall : (Enumerated.all : List τ).Nodup)
    (hwidth : ∀ row ∈ rows, row.length = Enumerated.count κ) (h : ofRows role rows = .ok t) :
    t.WrittenBy (Enumerated.count ρ) (Enumerated.count κ) rows := by
  obtain ⟨hheight, hcells, hnext⟩ := ofRows_eq_ok.mp h
  refine ⟨hheight, hwidth, fun row hrow cell hcell => ?_, fun r k => ?_⟩
  · rcases hcells row hrow cell hcell with hcell | hlt
    · exact .inl hcell
    · right
      have hs : Enumerated.ofIndex? cell = some ((Enumerated.all : List τ)[cell]) :=
        List.getElem?_eq_getElem hlt
      exact ⟨_, (Enumerated.index_of_ofIndex? hall hs).symm⟩
  · have hr : Enumerated.index r < rows.length := hheight ▸ Enumerated.index_lt_count r
    have hrow := List.getElem?_eq_getElem hr
    have hk : Enumerated.index k < rows[Enumerated.index r].length :=
      hwidth _ (List.getElem_mem hr) ▸ Enumerated.index_lt_count k
    have hcell := List.getElem?_eq_getElem hk
    have hvalue := hnext r k
    rw [hrow, Option.bind_some, hcell, Option.bind_some] at hvalue
    rw [hvalue]
    have hvalid := hcells _ (List.getElem_mem hr) _ (List.getElem_mem hk)
    exact ⟨_, _, hrow, hcell, ofCell_iff hsmall hall hvalid⟩

end

/-- The rows that write a table are its own. -/
theorem WrittenBy.rows_eq {t : Table ρ κ τ} {rows : List (List Nat)}
    (hrows : (Enumerated.all : List ρ).Nodup) (hcolumns : (Enumerated.all : List κ).Nodup)
    (h : t.WrittenBy (Enumerated.count ρ) (Enumerated.count κ) rows) : t.rows = rows := by
  apply Enumerated.map_eq hrows h.height
  intro r
  have hr : Enumerated.index r < rows.length := h.height ▸ Enumerated.index_lt_count r
  have hrow := List.getElem?_eq_getElem hr
  rw [hrow, Option.some.injEq]
  symm
  apply Enumerated.map_eq hcolumns (h.width _ (List.getElem_mem hr))
  intro k
  obtain ⟨row, cell, hrow', hcell, hnone, hsome⟩ := h.next r k
  rw [hrow, Option.some.injEq] at hrow'
  rw [hrow', hcell, Option.some.injEq]
  cases hnext : t.next r k with
  | none => exact hnone.mp hnext
  | some s => exact (hsome s).mp hnext

end Table

namespace Json

theorem nat?_ofNat (n : Nat) : (ofNat n).nat? = some n := by
  have hdigits : (toString n).toList = Nat.toDigits 10 n := Nat.toList_repr
  have hne : ¬(toString n).isEmpty = true := by
    intro hempty
    rw [String.isEmpty_iff.mp hempty] at hdigits
    exact Nat.toDigits_ne_nil hdigits.symm
  rw [ofNat, nat?, if_neg hne, hdigits]
  exact Numeral.digitsValue_toDigits (by decide) (by decide) n

end Json

namespace TableFile

theorem texts?_ofTexts (ss : List String) : texts? (.ofTexts ss) = some ss := by
  apply mapM_eq_some.mpr
  rw [List.forall₂_map_left_iff, List.forall₂_same]
  intro s _
  rfl

theorem rows?_rowsJson {width : Nat} {rows : List (List Nat)}
    (hwidth : ∀ row ∈ rows, row.length = width)
    (hcells : ∀ row ∈ rows, ∀ cell ∈ row, cell < 0x10000) :
    rows? width (rowsJson rows) = some rows := by
  apply mapM_eq_some.mpr
  rw [List.forall₂_map_left_iff, List.forall₂_same]
  intro row hrow
  have hread : (row.map Json.ofNat).mapM cell? = some row := by
    rw [mapM_eq_some, List.forall₂_map_left_iff, List.forall₂_same]
    intro cell hcell
    simp [cell?, Json.nat?_ofNat, hcells row hrow cell hcell]
  simp [Json.elements?, hwidth row hrow, hread]

/-- Rows that are read have the width that is asked for. -/
theorem width_of_rows? {width : Nat} {j : Json} {rows : List (List Nat)}
    (h : rows? width j = some rows) : ∀ row ∈ rows, row.length = width := by
  obtain ⟨es, -, h⟩ := Option.bind_eq_some_iff.mp h
  intro row hrow
  obtain ⟨e, -, he⟩ := exists_of_mem_left (mapM_eq_some.mp h).flip hrow
  obtain ⟨cells, -, he⟩ := Option.bind_eq_some_iff.mp he
  split at he
  · next hlength =>
    rw [← hlength]
    exact (mapM_eq_some.mp he).length_eq.symm
  · cases he

theorem width_of_ofValues? {values : List Json} {f : TableFile} (h : ofValues? values = some f) :
    (∀ row ∈ f.transition, row.length = Enumerated.count TokenKind) ∧
      ∀ row ∈ f.generation, row.length = Enumerated.count State := by
  unfold ofValues? at h
  split at h
  · obtain ⟨kinds, -, h⟩ := Option.bind_eq_some_iff.mp h
    obtain ⟨states, -, h⟩ := Option.bind_eq_some_iff.mp h
    obtain ⟨phases, -, h⟩ := Option.bind_eq_some_iff.mp h
    obtain ⟨transition, ht, h⟩ := Option.bind_eq_some_iff.mp h
    obtain ⟨generation, hg, h⟩ := Option.bind_eq_some_iff.mp h
    cases h
    exact ⟨width_of_rows? ht, width_of_rows? hg⟩
  · cases h

theorem exists_values {j : Json} {f : TableFile} (h : ofJson? j = some f) :
    ∃ values, ofValues? values = some f := by
  unfold ofJson? at h
  split at h
  · exact ⟨_, h⟩
  · split at h
    · obtain ⟨values, -, h⟩ := Option.bind_eq_some_iff.mp h
      exact ⟨values, h⟩
    · cases h
  · cases h

theorem tables_eq_ok {f : TableFile} {set : TableSet} :
    f.tables = .ok set ↔ f.kinds = Enumerated.names TokenKind ∧ f.states = Enumerated.names State ∧
      f.phases = Enumerated.names Phase ∧
      Table.ofRows .transition f.transition = .ok set.transition ∧
      Table.ofRows .generation f.generation = .ok set.generation := by
  unfold tables
  split
  · next hk => exact ⟨nofun, fun h => absurd h.1 hk⟩
  split
  · next hs => exact ⟨nofun, fun h => absurd h.2.1 hs⟩
  split
  · next hp => exact ⟨nofun, fun h => absurd h.2.2.1 hp⟩
  next hk hs hp =>
  rw [bind_eq_ok]
  constructor
  · rintro ⟨t, ht, h⟩
    obtain ⟨g, hg, h⟩ := bind_eq_ok.mp h
    cases h
    exact ⟨not_not.mp hk, not_not.mp hs, not_not.mp hp, ht, hg⟩
  · rintro ⟨-, -, -, ht, hg⟩
    exact ⟨_, ht, bind_eq_ok.mpr ⟨_, hg, rfl⟩⟩

/-- Lists and rows that a file can hold. -/
structure Full (f : TableFile) : Prop where
  names : ∀ s ∈ f.kinds ++ f.states ++ f.phases, ∀ c ∈ s.toList, Json.isPlain c = true
  transition : ∀ row ∈ f.transition, row.length = Enumerated.count TokenKind
  generation : ∀ row ∈ f.generation, row.length = Enumerated.count State
  cells : ∀ row ∈ f.transition ++ f.generation, ∀ cell ∈ row, cell < 0x10000

theorem ofValues?_values {f : TableFile} (h : f.Full) : ofValues? f.values = some f := by
  obtain ⟨ht, hg⟩ := List.forall_mem_append.mp h.cells
  simp [values, ofValues?, texts?_ofTexts, rows?_rowsJson h.transition ht,
    rows?_rowsJson h.generation hg]

theorem plain_ofTexts {ss : List String} (h : ∀ s ∈ ss, ∀ c ∈ s.toList, Json.isPlain c = true) :
    (Json.ofTexts ss).Plain := by
  apply Json.Plain.array
  rw [List.forall_mem_map]
  exact fun s hs => .text (h s hs)

theorem plain_rowsJson (rows : List (List Nat)) : (rowsJson rows).Plain := by
  apply Json.Plain.array
  rw [List.forall_mem_map]
  intro row _
  apply Json.Plain.array
  rw [List.forall_mem_map]
  exact fun cell _ => .number cell

theorem plain_values {f : TableFile} (h : f.Full) : ∀ j ∈ f.values, j.Plain := by
  obtain ⟨hnames, hphases⟩ := List.forall_mem_append.mp h.names
  obtain ⟨hkinds, hstates⟩ := List.forall_mem_append.mp hnames
  simp only [values, List.forall_mem_cons]
  exact ⟨plain_ofTexts hkinds, plain_ofTexts hstates, plain_ofTexts hphases, plain_rowsJson _,
    plain_rowsJson _, List.forall_mem_nil _⟩

theorem plain_keys {values : List Json} :
    ∀ m ∈ keys.zip values, ∀ c ∈ m.1.toList, Json.isPlain c = true := by
  have hkeys : (keys.all fun s => s.toList.all Json.isPlain) = true := by decide
  simp only [List.all_eq_true] at hkeys
  intro m hm
  exact hkeys m.1 (List.of_mem_zip hm).1

theorem parse?_text {f : TableFile} (h : f.Full) :
    (Json.parse? f.text.toUTF8.toList).bind ofJson? = some f := by
  have hplain : f.json.Plain :=
    .object plain_keys fun m hm => plain_values h m.2 (List.of_mem_zip hm).2
  have hmembers : ofJson? f.json = ofValues? f.values := by
    simp [json, keys, values, Json.ofObject, ofJson?, member?]
  rw [text, hplain.parse?_compact, Option.bind_some, hmembers, ofValues?_values h]

end TableFile

namespace Table

variable {ρ κ τ : Type} [Enumerated ρ] [Enumerated κ] [Enumerated τ]

theorem width_rows (t : Table ρ κ τ) : ∀ row ∈ t.rows, row.length = Enumerated.count κ := by
  rw [rows, List.forall_mem_map]
  intro r _
  rw [List.length_map, Enumerated.count]

theorem cell_lt (hsmall : Enumerated.count τ ≤ noEntry) (t : Table ρ κ τ) :
    ∀ row ∈ t.rows, ∀ cell ∈ row, cell < 0x10000 := by
  intro row hrow cell hcell
  obtain ⟨-, hcells, -⟩ := ofRows_eq_ok.mp (ofRows_rows hsmall .transition t)
  have hvalid := hcells row hrow cell hcell
  rw [noEntry] at hsmall hvalid
  omega

end Table

namespace TableSet

theorem full_ofTables (set : TableSet) : (TableFile.ofTables set).Full where
  names := by
    have hnames : ((Enumerated.names TokenKind ++ Enumerated.names State ++
        Enumerated.names Phase).all fun s => s.toList.all Json.isPlain) = true := by decide +kernel
    simp only [List.all_eq_true] at hnames
    exact hnames
  transition := set.transition.width_rows
  generation := set.generation.width_rows
  cells := List.forall_mem_append.mpr
    ⟨set.transition.cell_lt (by decide), set.generation.cell_lt (by decide)⟩

theorem tables_ofTables (set : TableSet) : (TableFile.ofTables set).tables = .ok set :=
  TableFile.tables_eq_ok.mpr
    ⟨rfl, rfl, rfl, Table.ofRows_rows (by decide) _ _, Table.ofRows_rows (by decide) _ _⟩

/-- Saved tables load back. -/
theorem ofBytes_text (set : TableSet) : ofBytes set.text.toUTF8.toList = .ok set := by
  rw [ofBytes, text, TableFile.parse?_text set.full_ofTables]
  exact set.tables_ofTables

/-- A list of the values without keys loads too, and is no saved file. -/
theorem ofBytes_values (set : TableSet) :
    ofBytes (Json.array (TableFile.ofTables set).values).compact.toUTF8.toList = .ok set ∧
      (Json.array (TableFile.ofTables set).values).compact.toUTF8.toList ≠
        set.text.toUTF8.toList := by
  constructor
  · have hplain := Json.Plain.array (TableFile.plain_values set.full_ofTables)
    rw [ofBytes, hplain.parse?_compact, Option.bind_some, TableFile.ofJson?,
      TableFile.ofValues?_values set.full_ofTables]
    exact set.tables_ofTables
  · intro heq
    have hhead : (Json.array (TableFile.ofTables set).values).bytes.head? =
        (TableFile.ofTables set).json.bytes.head? := congrArg List.head? heq
    rw [Json.bytes_array, TableFile.json, Json.bytes_ofObject TableFile.plain_keys] at hhead
    cases hhead

theorem writtenBy_transition {rows : List (List Nat)} {t : TransitionTable}
    (hwidth : ∀ row ∈ rows, row.length = 33) (h : Table.ofRows .transition rows = .ok t) :
    t.WrittenBy 47 33 rows :=
  Table.writtenBy_of_ofRows (by decide) Enumerated.nodup_states hwidth h

theorem writtenBy_generation {rows : List (List Nat)} {g : GenerationTable}
    (hwidth : ∀ row ∈ rows, row.length = 47) (h : Table.ofRows .generation rows = .ok g) :
    g.WrittenBy 6 47 rows :=
  Table.writtenBy_of_ofRows (by decide) Enumerated.nodup_phases hwidth h

/-- Bytes that load are those of a file with the lists of the language and full rows. -/
theorem ofBytes_eq_ok {bytes : List UInt8} {set : TableSet} (h : ofBytes bytes = .ok set) :
    ∃ f, (Json.parse? bytes).bind TableFile.ofJson? = some f ∧ f = TableFile.ofTables set ∧
      set.transition.WrittenBy 47 33 f.transition ∧
      set.generation.WrittenBy 6 47 f.generation := by
  unfold ofBytes at h
  split at h
  · next f hf =>
    obtain ⟨j, -, hj⟩ := Option.bind_eq_some_iff.mp hf
    obtain ⟨values, hvalues⟩ := TableFile.exists_values hj
    obtain ⟨htwidth, hgwidth⟩ := TableFile.width_of_ofValues? hvalues
    obtain ⟨hkinds, hstates, hphases, ht, hg⟩ := TableFile.tables_eq_ok.mp h
    have htransition := writtenBy_transition htwidth ht
    have hgeneration := writtenBy_generation hgwidth hg
    refine ⟨f, hf, ?_, htransition, hgeneration⟩
    have htrows := htransition.rows_eq Enumerated.nodup_states Enumerated.nodup_kinds
    have hgrows := hgeneration.rows_eq Enumerated.nodup_phases Enumerated.nodup_states
    rw [TableFile.ofTables, htrows, hgrows, ← hkinds, ← hstates, ← hphases]
  · cases h

end TableSet

/-- Tables that are read from rows keep them, and load back from the file that they are saved in. A
file that loads has 47 rows of 33 cells and 6 rows of 47 cells, which are all valid and are what the
tables answer by; saving these tables writes what was read, and they load back from that. -/
theorem saved_tables_load_back :
    (∀ (rows rows' : List (List Nat)) (t : TransitionTable) (g : GenerationTable),
      (∀ row ∈ rows, row.length = 33) → (∀ row ∈ rows', row.length = 47) →
      Table.ofRows .transition rows = .ok t → Table.ofRows .generation rows' = .ok g →
      t.rows = rows ∧ g.rows = rows' ∧
        TableSet.ofBytes (TableSet.mk t g).text.toUTF8.toList = .ok ⟨t, g⟩) ∧
    ∀ (bytes : List UInt8) (set : TableSet), TableSet.ofBytes bytes = .ok set →
      ∃ f, (Json.parse? bytes).bind TableFile.ofJson? = some f ∧ f = TableFile.ofTables set ∧
        set.transition.WrittenBy 47 33 f.transition ∧
        set.generation.WrittenBy 6 47 f.generation ∧
        TableSet.ofBytes set.text.toUTF8.toList = .ok set := by
  constructor
  · intro rows rows' t g hwidth hwidth' ht hg
    have htransition := TableSet.writtenBy_transition hwidth ht
    have hgeneration := TableSet.writtenBy_generation hwidth' hg
    exact ⟨htransition.rows_eq Enumerated.nodup_states Enumerated.nodup_kinds,
      hgeneration.rows_eq Enumerated.nodup_phases Enumerated.nodup_states,
      TableSet.ofBytes_text ⟨t, g⟩⟩
  · intro bytes set h
    obtain ⟨f, hf, hset, ht, hg⟩ := TableSet.ofBytes_eq_ok h
    exact ⟨f, hf, hset, ht, hg, set.ofBytes_text⟩

/-- The tables of the language, from their rows and from a file with the values but no keys. -/
theorem saved_tables_load_back_without_keys :
    ∃ (rows rows' : List (List Nat)) (bytes : List UInt8),
      (∀ row ∈ rows, row.length = 33) ∧ (∀ row ∈ rows', row.length = 47) ∧
      Table.ofRows .transition rows = .ok TableSet.built.transition ∧
      Table.ofRows .generation rows' = .ok TableSet.built.generation ∧
      TableSet.ofBytes TableSet.built.text.toUTF8.toList = .ok TableSet.built ∧
      bytes ≠ TableSet.built.text.toUTF8.toList ∧ TableSet.ofBytes bytes = .ok TableSet.built ∧
      ∃ f, (Json.parse? bytes).bind TableFile.ofJson? = some f ∧
        TableSet.built.transition.WrittenBy 47 33 f.transition ∧
        TableSet.built.generation.WrittenBy 6 47 f.generation := by
  have ht := Table.ofRows_rows (by decide) .transition TableSet.built.transition
  have hg := Table.ofRows_rows (by decide) .generation TableSet.built.generation
  have htwidth := TableSet.built.transition.width_rows
  have hgwidth := TableSet.built.generation.width_rows
  obtain ⟨hload, hne⟩ := TableSet.built.ofBytes_values
  obtain ⟨hrows, hbytes⟩ := saved_tables_load_back
  obtain ⟨-, -, hsaved⟩ := hrows _ _ _ _ htwidth hgwidth ht hg
  obtain ⟨f, hf, -, hft, hfg, -⟩ := hbytes _ _ hload
  exact ⟨_, _, _, htwidth, hgwidth, ht, hg, hsaved, hne, hload, f, hf, hft, hfg⟩

end ThreeAddress
