namespace ThreeAddress

/-- Odds in tenths. -/
inductive Odds where
  | three
  | four
  | five
  | seven
  | eight
  deriving DecidableEq, Repr

structure Dice (σ : Type) where
  /-- a number from zero to the bound -/
  upTo : (bound : Nat) → σ → Fin (bound + 1) × σ
  chance : Odds → σ → Bool × σ

namespace Dice

variable {σ α : Type}

def draw (d : Dice σ) (bound : Nat) : StateM σ (Fin (bound + 1)) := fun s => d.upTo bound s

def flip (d : Dice σ) (odds : Odds) : StateM σ Bool := fun s => d.chance odds s

/-- A member of a list that is not empty. -/
def pick (d : Dice σ) (x : α) (xs : List α) : StateM σ α := do
  let i ← d.draw xs.length
  return (x :: xs)[i]

/-- So many draws one after the other. -/
def times (n : Nat) (draw : StateM σ α) : StateM σ (List α) :=
  match n with
  | 0 => return []
  | n + 1 => do
    let a ← draw
    let as ← times n draw
    return a :: as

end Dice

/-- A generator with 64 bits of state: the state goes on by a fixed step and is mixed for each
word. -/
structure SplitMix where
  state : UInt64
  deriving DecidableEq, Repr

namespace SplitMix

def word (g : SplitMix) : UInt64 × SplitMix :=
  let s := g.state + 0x9E3779B97F4A7C15
  let z := (s ^^^ (s >>> 30)) * 0xBF58476D1CE4E5B9
  let z := (z ^^^ (z >>> 27)) * 0x94D049BB133111EB
  (z ^^^ (z >>> 31), ⟨s⟩)

/-- The upper half of a word. -/
def half (g : SplitMix) : Nat × SplitMix :=
  let (w, g) := g.word
  ((w >>> 32).toNat, g)

/-- A number below a range: a half word times the range, divided by 2^32. When the part that is cut
off leaves the result in doubt, a second draw may carry into it. -/
def below (range : Nat) (g : SplitMix) : Nat × SplitMix :=
  let (u, g) := g.half
  let (high, low) := (u * range / UInt32.size, u * range % UInt32.size)
  if UInt32.size - range < low then
    let (v, g) := g.half
    let carry := if UInt32.size ≤ low + v * range / UInt32.size then 1 else 0
    (high + carry, g)
  else (high, g)

/-- The words below this many of 2^64 count as true. -/
def threshold : Odds → Nat
  | .three => 5534023222112865280
  | .four => 7378697629483821056
  | .five => 9223372036854775808
  | .seven => 12912720851596685312
  | .eight => 14757395258967642112

def dice : Dice SplitMix where
  upTo bound g :=
    let (n, g) := g.below (bound + 1)
    (Fin.ofNat (bound + 1) n, g)
  chance odds g :=
    let (w, g) := g.word
    (w.toNat < threshold odds, g)

end SplitMix

end ThreeAddress
