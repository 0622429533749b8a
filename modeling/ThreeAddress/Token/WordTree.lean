import ThreeAddress.Token.Kind

namespace ThreeAddress

/-- The ids of a node's children, 0 where there is none, and whether a word ends at the node. -/
structure WordNode where
  children : Vector UInt32 52
  terminal : Bool
  deriving DecidableEq, Repr

def WordNode.blank : WordNode := ⟨.replicate 52 0, false⟩

/-- A tree of letters. A node is found by its id, and the root has the id 0. -/
structure WordTree where
  nodes : Array WordNode
  deriving DecidableEq, Repr

namespace WordTree

def empty : WordTree := ⟨#[.blank]⟩

/-- The place of a letter among the children. Capitals come first. -/
def slot? (c : Char) : Option (Fin 52) :=
  if h : 65 ≤ c.toNat ∧ c.toNat ≤ 90 then some ⟨c.toNat - 65, by omega⟩
  else if h : 97 ≤ c.toNat ∧ c.toNat ≤ 122 then some ⟨c.toNat - 97 + 26, by omega⟩
  else none

def child? (t : WordTree) (i : Nat) (s : Fin 52) : Option Nat :=
  match t.nodes[i]? with
  | none => none
  | some n => if n.children[s] = 0 then none else some n.children[s].toNat

/-- Gives a node a new child. The id is cut to the width of a child's place. -/
def link (t : WordTree) (i : Nat) (s : Fin 52) : WordTree :=
  ⟨(t.nodes.push .blank).modify i fun n =>
    { n with children := n.children.set s (UInt32.ofNat t.nodes.size) }⟩

/-- Ends a word at a node. -/
def mark (t : WordTree) (i : Nat) : WordTree :=
  ⟨t.nodes.modify i fun n => { n with terminal := true }⟩

/-- Whether a word ends at a node. -/
def ends (t : WordTree) (i : Nat) : Bool := t.nodes[i]?.any (·.terminal)

/-- How far an insertion got: the tree as it is then, the node, and whether a node was added. -/
structure Descent where
  tree : WordTree
  node : Nat
  added : Bool

def Descent.step (d : Descent) (s : Fin 52) : Descent :=
  match d.tree.child? d.node s with
  | some j => { d with node := j }
  | none => ⟨d.tree.link d.node s, d.tree.nodes.size, true⟩

def descend (t : WordTree) (slots : List (Fin 52)) : Descent :=
  slots.foldl Descent.step ⟨t, 0, false⟩

/-- Inserts a word and tells whether this added a node. Words with other characters than letters
leave the tree as it is. -/
def add (word : List Char) (t : WordTree) : WordTree × Bool :=
  match word.mapM slot? with
  | none => (t, false)
  | some [] => (t, false)
  | some slots =>
    let d := t.descend slots
    (d.tree.mark d.node, d.added)

def insert (word : List Char) (t : WordTree) : WordTree := (t.add word).1

def grows (word : List Char) (t : WordTree) : Bool := (t.add word).2

/-- The node that the letters lead to. -/
def walk (t : WordTree) (word : List Char) : Option Nat :=
  word.foldlM (fun i c => (slot? c).bind (t.child? i)) 0

def contains (word : List Char) (t : WordTree) : Bool := (t.walk word).any t.ends

/-- Whether some word in the tree starts like this. -/
def knows (start : List Char) (t : WordTree) : Bool := (t.walk start).isSome

/-- The root counts as a node. -/
def nodeCount (t : WordTree) : Nat := t.nodes.size

def ofWords (words : List String) : WordTree :=
  words.foldl (fun t w => t.insert w.toList) empty

/-- The words that no name can have. -/
def reserved : WordTree := ofWords (TokenKind.reserved.map (·.1))

end WordTree

end ThreeAddress
