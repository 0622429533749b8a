namespace ThreeAddress

class Enumerated (α : Type) where
  all : List α
  index : α → Nat
  name : α → String
  all_index : ∀ a, all[index a]? = some a

namespace Enumerated

variable {α : Type} [Enumerated α]

def count (α : Type) [Enumerated α] : Nat := (all : List α).length

def ofIndex? (i : Nat) : Option α := (all : List α)[i]?

def names (α : Type) [Enumerated α] : List String := (all : List α).map name

/-- The member of a given name. -/
def ofName? (s : String) : Option α := (all : List α).find? fun a => name a == s

theorem ofIndex?_index (a : α) : ofIndex? (index a) = some a := all_index a

theorem index_lt_count (a : α) : index a < count α :=
  (List.getElem?_eq_some_iff.mp (all_index a)).1

theorem mem_all (a : α) : a ∈ (all : List α) := List.mem_of_getElem? (all_index a)

end Enumerated

end ThreeAddress
