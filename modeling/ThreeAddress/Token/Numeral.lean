namespace ThreeAddress.Numeral

/-- Suffixes of an integer literal, longer ones first. -/
def suffixes : List (List Char) := [['u', 'L'], ['U', 'L'], ['u'], ['U'], ['L']]

/-- Body and suffix of an integer literal. -/
def splitSuffix (s : List Char) : List Char × List Char :=
  match suffixes.find? (·.isSuffixOf s) with
  | some t => (s.take (s.length - t.length), t)
  | none => (s, [])

/-- Digits and radix of a body without suffix. -/
def splitRadix : List Char → List Char × Nat
  | '0' :: 'x' :: r => (r, 16)
  | '0' :: 'X' :: r => (r, 16)
  | '0' :: 'b' :: r => (r, 2)
  | '0' :: 'B' :: r => (r, 2)
  | r => (r, 10)

/-- Value of a digit or ASCII letter as a digit, whatever the radix. -/
def digitValue (c : Char) : Option Nat :=
  if '0' ≤ c ∧ c ≤ '9' then some (c.toNat - '0'.toNat)
  else if 'a' ≤ c ∧ c ≤ 'z' then some (c.toNat - 'a'.toNat + 10)
  else if 'A' ≤ c ∧ c ≤ 'Z' then some (c.toNat - 'A'.toNat + 10)
  else none

def digit? (radix : Nat) (c : Char) : Option Nat := (digitValue c).filter (· < radix)

/-- Why a literal is refused. -/
inductive Fault where
  | manyPoints
  | noFraction
  | notDecimal
  | noDigits
  | badDigit
  deriving DecidableEq, Repr

def Fault.reason : Fault → String
  | .manyPoints => "more than one `.`"
  | .noFraction => "missing digits after `.`"
  | .notDecimal => "float literals take decimal digits only"
  | .noDigits => "missing digits after the radix prefix"
  | .badDigit => "digit out of range for the literal's radix"

def isFloat (s : List Char) : Bool := s.contains '.'

/-- Texts before and after the first point. -/
def splitPoint (s : List Char) : List Char × List Char :=
  (s.takeWhile (· != '.'), (s.dropWhile (· != '.')).tail)

def checkFloat (whole fraction : List Char) : Except Fault Unit :=
  if fraction.contains '.' then .error .manyPoints
  else if fraction.isEmpty then .error .noFraction
  else if whole.all Char.isDigit && fraction.all Char.isDigit then .ok ()
  else .error .notDecimal

def checkInt (digits : List Char) (radix : Nat) : Except Fault Unit :=
  if digits.isEmpty then .error .noDigits
  else if digits.all fun c => (digit? radix c).isSome then .ok ()
  else .error .badDigit

/-- Whether a literal that starts with a digit is well formed. -/
def check (s : List Char) : Except Fault Unit :=
  if isFloat s then
    let (whole, fraction) := splitPoint s
    checkFloat whole fraction
  else
    let (digits, radix) := splitRadix (splitSuffix s).1
    checkInt digits radix

/-- Value of a digit string, most significant digit first. -/
def digitsValue (radix : Nat) (digits : List Char) : Option Nat :=
  digits.foldlM (fun v c => (digit? radix c).map (v * radix + ·)) 0

/-- A sign in front of at least one digit is read over. -/
def unsigned : List Char → List Char
  | '+' :: c :: r => c :: r
  | s => s

/-- The number that a text writes in a radix, if it has digits and fits in 64 bits. -/
def word64? (radix : Nat) (s : List Char) : Option Nat :=
  if (unsigned s).isEmpty then none
  else (digitsValue radix (unsigned s)).filter (· < UInt64.size)

/-- Value of an integer literal, radix mark and suffix removed. -/
def value? (s : List Char) : Option Nat :=
  let (digits, radix) := splitRadix (splitSuffix s).1
  word64? radix digits

theorem splitPoint_append (s : List Char) (h : isFloat s = true) :
    (splitPoint s).1 ++ '.' :: (splitPoint s).2 = s := by
  induction s with
  | nil => simp [isFloat] at h
  | cons c r ih =>
    by_cases hc : c = '.'
    · simp [splitPoint, hc]
    · have hr : isFloat r = true := by
        simp only [isFloat, List.contains_cons, Bool.or_eq_true, beq_iff_eq] at h ⊢
        exact h.resolve_left fun he => hc he.symm
      have hn : (c != '.') = true := by simp [hc]
      simpa [splitPoint, List.takeWhile_cons, List.dropWhile_cons, hn] using ih hr

theorem splitSuffix_append (s : List Char) : (splitSuffix s).1 ++ (splitSuffix s).2 = s := by
  unfold splitSuffix
  split
  · next t h =>
    have hs := List.find?_some h
    have ht : t <:+ s := List.isSuffixOf_iff_suffix.mp hs
    exact List.suffix_iff_eq_append.mp ht
  · simp

end ThreeAddress.Numeral
