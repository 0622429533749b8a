import ThreeAddress.Enumerated

namespace ThreeAddress

/-- Which table of the pair. -/
inductive TableRole where
  | transition
  | generation
  deriving DecidableEq, Repr

def TableRole.text : TableRole → String
  | .transition => "transition"
  | .generation => "generation"

inductive TableError where
  | rowCount (table : TableRole) (got want : Nat)
  | badCell (table : TableRole) (row column value : Nat)
  | mismatch (table : TableRole) (what : String)
  | malformed
  deriving DecidableEq, Repr

def TableError.message : TableError → String
  | .rowCount t got want => s!"{t.text} table has {got} rows, expected {want}"
  | .badCell t row column value =>
    s!"{t.text} table cell ({row}, {column}) = {value} is not a valid state"
  | .mismatch t what => s!"{t.text} table was generated for a different {what} list"
  | .malformed => "malformed table file"

/-- The cell of a pair without a next state. -/
def noEntry : Nat := 0xffff

structure Table (ρ κ τ : Type) where
  next : ρ → κ → Option τ

namespace Table

variable {ρ κ τ : Type} [Enumerated ρ] [Enumerated κ] [Enumerated τ]

def cellOf : Option τ → Nat
  | none => noEntry
  | some s => Enumerated.index s

def ofCell (n : Nat) : Option τ := if n = noEntry then none else Enumerated.ofIndex? n

/-- The table written out. -/
def rows (t : Table ρ κ τ) : List (List Nat) :=
  (Enumerated.all : List ρ).map fun r => (Enumerated.all : List κ).map fun k => cellOf (t.next r k)

/-- Columns that lead on from a row, in order. -/
def expected (t : Table ρ κ τ) (r : ρ) : List κ :=
  (Enumerated.all : List κ).filter fun k => (t.next r k).isSome

/-- Number of pairs with a next state. -/
def filled (t : Table ρ κ τ) : Nat :=
  (Enumerated.all : List ρ).foldl (fun n r => n + (t.expected r).length) 0

/-- The first cell, row by row, that names no state. -/
def badCell? (states : Nat) (rows : List (List Nat)) : Option (Nat × Nat × Nat) :=
  (rows.zipIdx.flatMap fun (cells, r) => cells.zipIdx.map fun (v, c) => (r, c, v)).find?
    fun (_, _, v) => v != noEntry && states ≤ v

/-- The table that rows of cells write, if there is one row for each and every cell is valid. -/
def ofRows (role : TableRole) (rows : List (List Nat)) : Except TableError (Table ρ κ τ) :=
  if rows.length ≠ Enumerated.count ρ then
    .error (.rowCount role rows.length (Enumerated.count ρ))
  else
    match badCell? (Enumerated.count τ) rows with
    | some (r, c, v) => .error (.badCell role r c v)
    | none =>
      .ok ⟨fun r k => (rows[Enumerated.index r]?.bind (·[Enumerated.index k]?)).bind ofCell⟩

omit [Enumerated ρ] [Enumerated τ] in
theorem mem_expected (t : Table ρ κ τ) (r : ρ) (k : κ) :
    k ∈ t.expected r ↔ (t.next r k).isSome = true := by
  simp [expected, Enumerated.mem_all]

theorem length_rows (t : Table ρ κ τ) : t.rows.length = Enumerated.count ρ := by
  simp [rows, Enumerated.count]

end Table

end ThreeAddress
