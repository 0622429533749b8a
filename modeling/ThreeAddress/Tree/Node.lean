import ThreeAddress.Text.Quoted
import ThreeAddress.Token.Basic
import ThreeAddress.Tree.State

namespace ThreeAddress

inductive Node where
  | leaf (kind : State) (token : Token)
  | branch (kind : State) (token : Token) (children : List Node)

namespace Node

def kind : Node → State
  | .leaf k _ => k
  | .branch k _ _ => k

def token : Node → Token
  | .leaf _ t => t
  | .branch _ t _ => t

def children : Node → List Node
  | .leaf _ _ => []
  | .branch _ _ cs => cs

/-- Nodes that code generation steps on: every branch, and the two closing leaves. -/
def isConstruct : Node → Bool
  | .branch _ _ _ => true
  | .leaf k _ => k == .bodyClose || k == .finished

def line (depth : Nat) (k : State) (t : Token) : String :=
  let margin := String.ofList (List.replicate (2 * depth) ' ')
  s!"{margin}{k.name} {Text.quoted t.lexeme} @{t.site.line}:{t.site.column}\n"

mutual
/-- One line for each node, children two columns further in. -/
def lines (depth : Nat) : Node → List String
  | .leaf k t => [line depth k t]
  | .branch k t cs => line depth k t :: linesAll (depth + 1) cs

def linesAll (depth : Nat) : List Node → List String
  | [] => []
  | n :: ns => lines depth n ++ linesAll depth ns
end

mutual
/-- The tokens that leaves hold, from left to right. -/
def leaves : Node → List Token
  | .leaf _ t => [t]
  | .branch _ _ cs => leavesAll cs

def leavesAll : List Node → List Token
  | [] => []
  | n :: ns => leaves n ++ leavesAll ns
end

end Node

/-- The tree of one file. -/
structure Tree where
  file : String
  items : List Node

namespace Tree

/-- Top-level declarations: all but the end of file. -/
def declarations (t : Tree) : List Node := t.items.filter fun n => n.kind != .finished

def text (t : Tree) : String :=
  String.join (s!"== {t.file} ==\n" :: Node.linesAll 0 t.items)

end Tree

end ThreeAddress
