namespace ThreeAddress

/-- The longest run that is read. -/
def runLimit : Nat := 0x7fff

/-- What can be read of a file: its bytes, and the reason if reading fails behind them. -/
structure Source where
  bytes : List UInt8
  broken : Option String
  deriving DecidableEq, Repr

def Source.ofBytes (bytes : List UInt8) : Source := ⟨bytes, none⟩

inductive RunClass where
  | word
  | number
  | symbol
  deriving DecidableEq, Repr

/-- Newlines skipped, and bytes skipped after the last of them. -/
structure Blank where
  newlines : Nat
  indent : Nat
  deriving DecidableEq, Repr

def Blank.none : Blank := ⟨0, 0⟩

structure Run where
  cls : RunClass
  bytes : List UInt8
  before : Blank
  deriving DecidableEq, Repr

inductive ReadError where
  | unreadable (reason : String)
  | tooLong
  deriving DecidableEq, Repr

def ReadError.message : ReadError → String
  | .unreadable reason => s!"read failed: {reason}"
  | .tooLong => s!"lexeme longer than {runLimit} bytes"

namespace Run

def newline : UInt8 := 0x0a

def isBlank (b : UInt8) : Bool := b == 0x20 || b == 0x09 || b == 0x0d || b == newline

def isLetter (b : UInt8) : Bool := (0x41 ≤ b && b ≤ 0x5a) || (0x61 ≤ b && b ≤ 0x7a)

def isDigit (b : UInt8) : Bool := 0x30 ≤ b && b ≤ 0x39

def isAlnum (b : UInt8) : Bool := isLetter b || isDigit b

def isHexDigit (b : UInt8) : Bool :=
  isDigit b || (0x41 ≤ b && b ≤ 0x46) || (0x61 ≤ b && b ≤ 0x66)

/-- The letters `x X b B u U L` and the point, which numbers may hold beside digits. -/
def isMarker (b : UInt8) : Bool :=
  b == 0x78 || b == 0x58 || b == 0x62 || b == 0x42 || b == 0x75 || b == 0x55 || b == 0x4c ||
    b == 0x2e

def slash : UInt8 := 0x2f

def classify (b : UInt8) : RunClass :=
  if isLetter b then .word else if isDigit b then .number else .symbol

/-- Whether a number starts with the mark of radix 16. -/
def isHex : List UInt8 → Bool
  | a :: b :: _ => a == 0x30 && (b == 0x78 || b == 0x58)
  | _ => false

/-- Where a symbol run of `n` bytes so far ends: before a letter, digit or blank, or behind two
slashes. -/
def symbolLength (afterSlash : Bool) (n : Nat) : List UInt8 → Nat
  | [] => n
  | b :: rest =>
    if isAlnum b || isBlank b then n
    else if afterSlash && b == slash then n + 1
    else symbolLength (b == slash) (n + 1) rest

/-- Length of the run that a non-empty input starts with. -/
def length (input : List UInt8) : Nat :=
  match input with
  | [] => 0
  | b :: _ =>
    match classify b with
    | .word => (input.takeWhile isAlnum).length
    | .number =>
      let hex := isHex input
      (input.takeWhile fun c => isDigit c || isMarker c || (hex && isHexDigit c)).length
    | .symbol => symbolLength false 0 input

def skipBlankFrom : Blank → List UInt8 → Blank × List UInt8
  | n, [] => (n, [])
  | n, b :: rest =>
    if b == newline then skipBlankFrom ⟨n.newlines + 1, 0⟩ rest
    else if isBlank b then skipBlankFrom ⟨n.newlines, n.indent + 1⟩ rest
    else (n, b :: rest)

/-- Counts and drops the blanks in front. -/
def skipBlank (input : List UInt8) : Blank × List UInt8 := skipBlankFrom .none input

theorem skipBlankFrom_length (n : Blank) (input : List UInt8) :
    (skipBlankFrom n input).2.length ≤ input.length := by
  induction input generalizing n with
  | nil => simp [skipBlankFrom]
  | cons b rest ih =>
    unfold skipBlankFrom
    split
    · exact Nat.le_succ_of_le (ih _)
    · split
      · exact Nat.le_succ_of_le (ih _)
      · exact Nat.le_refl _

theorem skipBlank_length (input : List UInt8) : (skipBlank input).2.length ≤ input.length :=
  skipBlankFrom_length .none input

/-- After the blanks stands a byte that is none. -/
theorem head_skipBlankFrom {n : Blank} {input rest : List UInt8} {b : UInt8}
    (h : (skipBlankFrom n input).2 = b :: rest) : isBlank b = false := by
  induction input generalizing n with
  | nil => simp [skipBlankFrom] at h
  | cons c r ih =>
    unfold skipBlankFrom at h
    split at h
    · exact ih h
    · split at h
      · exact ih h
      · next hb =>
        cases h
        simpa using hb

theorem isBlank_of_isLetter {b : UInt8} (h : isLetter b = true) : isBlank b = false := by
  simp only [isLetter, isBlank, newline, Bool.or_eq_true, Bool.and_eq_true, decide_eq_true_eq,
    Bool.or_eq_false_iff, beq_eq_false_iff_ne, ne_eq] at h ⊢
  refine ⟨⟨⟨?_, ?_⟩, ?_⟩, ?_⟩ <;> rintro rfl <;> revert h <;> decide

theorem le_symbolLength (afterSlash : Bool) (n : Nat) (input : List UInt8) :
    n ≤ symbolLength afterSlash n input := by
  induction input generalizing afterSlash n with
  | nil => simp [symbolLength]
  | cons b rest ih =>
    unfold symbolLength
    split
    · exact Nat.le_refl _
    · split
      · exact Nat.le_succ _
      · exact Nat.le_of_succ_le (ih _ _)

/-- A run holds at least its first byte. -/
theorem length_pos {b : UInt8} {rest : List UInt8} (hb : isBlank b = false) :
    0 < length (b :: rest) := by
  unfold length
  by_cases hl : isLetter b = true
  · simp [classify, hl, isAlnum]
  · by_cases hd : isDigit b = true
    · simp [classify, hl, hd]
    · simp [classify, hl, hd, symbolLength, isAlnum, hb]
      exact le_symbolLength _ 1 rest

end Run

/-- A place in a source: the bytes ahead, whether its end was met, and the blanks found when the
end was met while looking for a run. -/
structure Cursor where
  rest : List UInt8
  broken : Option String
  atEnd : Bool
  tail : Blank
  deriving DecidableEq, Repr

namespace Cursor

def start (s : Source) : Cursor := ⟨s.bytes, s.broken, false, .none⟩

/-- The next run, or none at the end of the source. -/
def next (c : Cursor) : Except ReadError (Option Run) × Cursor :=
  if c.atEnd then (.ok none, c)
  else
    let (before, input) := Run.skipBlank c.rest
    match input with
    | [] =>
      match c.broken with
      | some reason => (.error (.unreadable reason), { c with rest := [] })
      | none => (.ok none, { c with rest := [], atEnd := true, tail := before })
    | b :: more =>
      let n := Run.length (b :: more)
      if runLimit < n then
        (.error .tooLong, { c with rest := (b :: more).drop (runLimit + 1) })
      else
        let rest := (b :: more).drop n
        let run : Run := ⟨Run.classify b, (b :: more).take n, before⟩
        if rest.isEmpty then
          match c.broken with
          | some reason => (.error (.unreadable reason), { c with rest := [] })
          | none => (.ok (some run), { c with rest := [], atEnd := true })
        else (.ok (some run), { c with rest := rest })

/-- Drops the rest of the line, up to its newline. -/
def skipLine (c : Cursor) : Except ReadError Unit × Cursor :=
  let rest := c.rest.dropWhile (· != Run.newline)
  if rest.isEmpty then
    match c.broken with
    | some reason => (.error (.unreadable reason), { c with rest := [] })
    | none => (.ok (), { c with rest := [], atEnd := true })
  else (.ok (), { c with rest := rest })

/-- Reading a run leaves less to read. -/
theorem next_rest_lt {c c' : Cursor} {r : Run} (h : c.next = (.ok (some r), c')) :
    c'.rest.length < c.rest.length := by
  unfold next at h
  split at h
  · cases h
  · have hlen := Run.skipBlank_length c.rest
    generalize hs : Run.skipBlank c.rest = s at h hlen
    obtain ⟨before, input⟩ := s
    cases input with
    | nil =>
      simp only at h
      split at h <;> cases h
    | cons b more =>
      have hb : Run.isBlank b = false := Run.head_skipBlankFrom (congrArg Prod.snd hs)
      have hpos : 0 < Run.length (b :: more) := Run.length_pos hb
      simp only at h hlen
      split at h
      · cases h
      · split at h
        · split at h
          · cases h
          · cases h
            simpa using Nat.lt_of_lt_of_le (Nat.succ_pos _) hlen
        · cases h
          simp only [List.length_drop, List.length_cons] at hlen ⊢
          omega

theorem skipLine_rest_le (c : Cursor) : c.skipLine.2.rest.length ≤ c.rest.length := by
  unfold skipLine
  simp only
  split
  · split <;> simp
  · exact (List.dropWhile_suffix _).sublist.length_le

end Cursor

end ThreeAddress
