import ThreeAddress.Budget
import ThreeAddress.Text.Quoted
import ThreeAddress.Text.Utf8
import ThreeAddress.Token.Basic
import ThreeAddress.Token.Numeral
import ThreeAddress.Token.Run
import ThreeAddress.Token.WordTree

namespace ThreeAddress

inductive LexFault where
  | malformedNumber (lexeme : String) (fault : Numeral.Fault)
  | illegalCharacter (c : Char)
  | tooLong
  | unreadable (reason : String)
  | exhausted (e : Exhausted)
  deriving DecidableEq, Repr

namespace LexFault

def message : LexFault → String
  | .malformedNumber lexeme fault => s!"malformed numeric literal `{lexeme}`: {fault.reason}"
  | .illegalCharacter c => s!"illegal character {Text.quotedChar c}"
  | .tooLong => ReadError.tooLong.message
  | .unreadable reason => (ReadError.unreadable reason).message
  | .exhausted e => e.message

def ofReadError : ReadError → LexFault
  | .unreadable reason => .unreadable reason
  | .tooLong => .tooLong

end LexFault

structure LexError where
  fault : LexFault
  site : Site
  deriving DecidableEq, Repr

def LexError.message (e : LexError) : String := s!"{e.site.text}: {e.fault.message}"

/-- How a symbol run ends: used up, at a comment, or at a character that starts no token. -/
inductive SymbolEnd where
  | complete
  | comment
  | illegal (c : Char) (column : Nat)
  deriving DecidableEq, Repr

/-- The longest punctuators of a symbol run, from the given column on. -/
def splitSymbols (file : String) (line column : Nat) : List Char → List Token × SymbolEnd
  | [] => ([], .complete)
  | [c] =>
    match TokenKind.single? c with
    | some k => ([⟨k, String.ofList [c], ⟨file, line, column⟩⟩], .complete)
    | none => ([], .illegal c column)
  | c :: d :: rest =>
    if c = '/' ∧ d = '/' then ([], .comment)
    else
      match TokenKind.pair? c d with
      | some k =>
        let (ts, e) := splitSymbols file line (column + 2) rest
        (⟨k, String.ofList [c, d], ⟨file, line, column⟩⟩ :: ts, e)
      | none =>
        match TokenKind.single? c with
        | some k =>
          let (ts, e) := splitSymbols file line (column + 1) (d :: rest)
          (⟨k, String.ofList [c], ⟨file, line, column⟩⟩ :: ts, e)
        | none => ([], .illegal c column)

/-- A word is a name unless it is reserved. -/
def wordKind (word : List Char) : TokenKind :=
  if WordTree.reserved.contains word then
    (TokenKind.ofReserved? (String.ofList word)).getD .ident
  else .ident

/-- Where reading stands: the cursor, and the position of the next byte that is not counted yet. -/
structure Stream where
  cursor : Cursor
  file : String
  line : Nat
  column : Nat
  deriving DecidableEq, Repr

namespace Stream

def start (file : String) (s : Source) : Stream := ⟨.start s, file, 1, 1⟩

def here (s : Stream) : Site := ⟨s.file, s.line, s.column⟩

/-- Moves the position over blanks. -/
def skip (b : Blank) (s : Stream) : Stream :=
  if 0 < b.newlines then { s with line := s.line + b.newlines, column := 1 + b.indent }
  else { s with column := s.column + b.indent }

/-- What one run gives: tokens to go on with, the end of the file, or a fault with the tokens in
front of it. -/
inductive Scanned where
  | tokens (ts : List Token)
  | finished (eof : Token)
  | failed (e : LexError) (ts : List Token)
  deriving DecidableEq, Repr

def scanWord (start : Site) (bytes : List UInt8) : Scanned :=
  let word := Text.ascii bytes
  .tokens [⟨wordKind word, String.ofList word, start⟩]

def scanNumber (start : Site) (bytes : List UInt8) : Scanned :=
  let text := Text.ascii bytes
  match Numeral.check text with
  | .ok () => .tokens [⟨.number, String.ofList text, start⟩]
  | .error fault => .failed ⟨.malformedNumber (String.ofList text) fault, start⟩ []

/-- A comment takes the rest of its line but no columns. -/
def scanSymbols (start : Site) (bytes : List UInt8) (s : Stream) : Scanned × Stream :=
  let (ts, ending) := splitSymbols start.file start.line start.column (Text.decodeLossy bytes)
  match ending with
  | .complete => (.tokens ts, s)
  | .comment =>
    match s.cursor.skipLine with
    | (.ok (), c) => (.tokens ts, { s with cursor := c })
    | (.error e, c) => (.failed ⟨.ofReadError e, s.here⟩ ts, { s with cursor := c })
  | .illegal c column => (.failed ⟨.illegalCharacter c, { start with column := column }⟩ ts, s)

/-- Reads one run. A failed read is reported where the last run ended. -/
def scan (s : Stream) : Scanned × Stream :=
  match s.cursor.next with
  | (.error e, c) => (.failed ⟨.ofReadError e, s.here⟩ [], { s with cursor := c })
  | (.ok none, c) =>
    let s := skip c.tail { s with cursor := c }
    (.finished ⟨.eof, "", s.here⟩, s)
  | (.ok (some run), c) =>
    let s := skip run.before { s with cursor := c }
    let start := s.here
    let s := { s with column := s.column + run.bytes.length }
    match run.cls with
    | .word => (scanWord start run.bytes, s)
    | .number => (scanNumber start run.bytes, s)
    | .symbol => scanSymbols start run.bytes s

@[simp] theorem skip_cursor (b : Blank) (s : Stream) : (skip b s).cursor = s.cursor := by
  unfold skip
  split <;> rfl

theorem scanSymbols_rest_le (start : Site) (bytes : List UInt8) (s : Stream) :
    (scanSymbols start bytes s).2.cursor.rest.length ≤ s.cursor.rest.length := by
  have h := s.cursor.skipLine_rest_le
  unfold scanSymbols
  simp only
  split
  · exact Nat.le_refl _
  · split <;> (next hk => rw [hk] at h; exact h)
  · exact Nat.le_refl _

/-- Whatever gives tokens uses up bytes. -/
theorem scan_rest_lt {s s' : Stream} {ts : List Token} (h : s.scan = (.tokens ts, s')) :
    s'.cursor.rest.length < s.cursor.rest.length := by
  unfold scan at h
  split at h
  · cases h
  · cases h
  · next run c hn =>
    have hlt := Cursor.next_rest_lt hn
    simp only at h
    have hs := (congrArg Prod.snd h).symm
    simp only at hs
    subst hs
    split
    · simpa using hlt
    · simpa using hlt
    · exact Nat.lt_of_le_of_lt (scanSymbols_rest_le _ _ _) (by simpa using hlt)

/-- Every item that pulling gives, in order. The budget is looked at before each run; it may hang
on the number of the pull that needs the run. -/
def items (budget : Nat → Budget) (pull : Nat) (s : Stream) : List (Except LexError Token) :=
  match (budget pull).check with
  | some e => [.error ⟨.exhausted e, s.here⟩]
  | none =>
    match h : s.scan with
    | (.tokens ts, s') => ts.map .ok ++ items budget (pull + ts.length) s'
    | (.finished eof, _) => [.ok eof]
    | (.failed e ts, _) => .error e :: ts.map .ok
termination_by s.cursor.rest.length
decreasing_by exact scan_rest_lt h

end Stream

/-- The tokens of a source, or its first error. -/
def tokenize (budget : Budget) (file : String) (s : Source) : Except LexError (List Token) :=
  ((Stream.start file s).items (fun _ => budget) 0).mapM id

end ThreeAddress
