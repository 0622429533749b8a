import ThreeAddress.Tree.Node

namespace ThreeAddress

/-- Recorded nodes, newest first, and how many they are. -/
structure Waiting where
  nodes : List Node
  count : Nat
  count_eq : count = nodes.length

namespace Waiting

def empty : Waiting := ⟨[], 0, rfl⟩

def push (n : Node) (w : Waiting) : Waiting := ⟨n :: w.nodes, w.count + 1, by simp [w.count_eq]⟩

/-- Leaves so many of the oldest nodes and takes the others, oldest first. -/
def split? (start : Nat) (w : Waiting) : Option (List Node × Waiting) :=
  if h : w.count < start then none
  else
    let n := w.count - start
    some ((w.nodes.take n).reverse, ⟨w.nodes.drop n, start, by
      have := w.count_eq
      simp only [List.length_drop]
      omega⟩)

@[simp] theorem nodes_push (n : Node) (w : Waiting) : (w.push n).nodes = n :: w.nodes := rfl

/-- Nothing is lost: what was taken lies on what is left. -/
theorem nodes_of_split? {start : Nat} {w below : Waiting} {taken : List Node}
    (h : w.split? start = some (taken, below)) :
    w.nodes = taken.reverse ++ below.nodes ∧ below.nodes.length = start := by
  unfold split? at h
  split at h
  · cases h
  · cases h
    have := w.count_eq
    simp only [List.reverse_reverse, List.take_append_drop, List.length_drop, true_and]
    omega

end Waiting

structure Mark where
  start : Nat
  kind : State
  token : Token

/-- A construct that later statements attach to, its children newest first. -/
structure Block where
  kind : State
  token : Token
  children : List Node

/-- All stacks have their newest member first. -/
structure Builder where
  pending : Waiting
  marks : List Mark
  blocks : List Block
  items : List Node

namespace Builder

def empty : Builder := ⟨.empty, [], [], []⟩

def shift (s : State) (t : Token) (b : Builder) : Builder :=
  { b with pending := b.pending.push (.leaf s t) }

def begin (s : State) (t : Token) (b : Builder) : Builder :=
  { b with marks := ⟨b.pending.count, s, t⟩ :: b.marks }

/-- Opens a construct around the newest node and names it by that node's token. -/
def wrap (s : State) (b : Builder) : Option Builder :=
  match b.pending.nodes with
  | [] => none
  | n :: _ => some { b with marks := ⟨b.pending.count - 1, s, n.token⟩ :: b.marks }

def retag (s : State) (b : Builder) : Option Builder :=
  match b.marks with
  | [] => none
  | m :: ms => some { b with marks := { m with kind := s } :: ms }

/-- Takes the innermost construct off: its mark and the nodes recorded since, oldest first. -/
def close (b : Builder) : Option (Mark × List Node × Builder) :=
  match b.marks with
  | [] => none
  | m :: ms =>
    (b.pending.split? m.start).map fun (cs, below) =>
      (m, cs, { b with pending := below, marks := ms })

def attach (n : Node) (b : Builder) : Builder :=
  match b.blocks with
  | [] => { b with items := n :: b.items }
  | k :: ks => { b with blocks := { k with children := n :: k.children } :: ks }

def fold (b : Builder) : Option Builder :=
  b.close.map fun (m, cs, b) => { b with pending := b.pending.push (.branch m.kind m.token cs) }

def reduce (b : Builder) : Option Builder :=
  b.close.map fun (m, cs, b) => b.attach (.branch m.kind m.token cs)

def openBlock (b : Builder) : Option Builder :=
  b.close.map fun (m, cs, b) => { b with blocks := ⟨m.kind, m.token, cs.reverse⟩ :: b.blocks }

/-- Ends the innermost block with a closing leaf. -/
def closeBlock (s : State) (t : Token) (b : Builder) : Option Builder :=
  match b.blocks with
  | [] => none
  | k :: ks =>
    some ({ b with blocks := ks }.attach
      (.branch k.kind k.token (Node.leaf s t :: k.children).reverse))

def finish (s : State) (t : Token) (b : Builder) : Builder :=
  { b with items := .leaf s t :: b.items }

/-- What entering a state does, if the stacks allow it. -/
def enter (s : State) (t : Token) (b : Builder) : Option Builder :=
  match s.action with
  | .skip => some b
  | .shift => some (b.shift s t)
  | .begin => some (b.begin s t)
  | .beginShift => some ((b.begin s t).shift s t)
  | .wrap => b.wrap s
  | .retag => b.retag s
  | .fold => b.fold
  | .reduce => b.reduce
  | .openBlock => b.openBlock
  | .closeBlock => b.closeBlock s t
  | .finish => some (b.finish s t)

/-- Nothing is left open. -/
def settled (b : Builder) : Bool := b.pending.nodes.isEmpty && b.marks.isEmpty && b.blocks.isEmpty

end Builder

end ThreeAddress
