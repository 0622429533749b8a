import ThreeAddress.Json.Basic
import ThreeAddress.Text.Utf8

namespace ThreeAddress.Json

def isSpace (b : UInt8) : Bool := b == 0x20 || b == 0x09 || b == 0x0a || b == 0x0d

def skipSpace (input : List UInt8) : List UInt8 := input.dropWhile isSpace

/-- A piece of a string literal: a byte of text, or the number of a `\u` escape. -/
inductive Piece where
  | byte (b : UInt8)
  | unit (n : Nat)

def hexValue (b : UInt8) : Option Nat :=
  if 0x30 ≤ b && b ≤ 0x39 then some (b.toNat - 0x30)
  else if 0x61 ≤ b && b ≤ 0x66 then some (b.toNat - 0x61 + 10)
  else if 0x41 ≤ b && b ≤ 0x46 then some (b.toNat - 0x41 + 10)
  else none

def hex4 (a b c d : UInt8) : Option Nat := do
  let a ← hexValue a
  let b ← hexValue b
  let c ← hexValue c
  let d ← hexValue d
  return ((a * 16 + b) * 16 + c) * 16 + d

/-- The byte that a short escape writes. -/
def shortEscape (b : UInt8) : Option UInt8 :=
  if b == 0x22 || b == 0x5c || b == 0x2f then some b
  else if b == 0x62 then some 0x08
  else if b == 0x66 then some 0x0c
  else if b == 0x6e then some 0x0a
  else if b == 0x72 then some 0x0d
  else if b == 0x74 then some 0x09
  else none

/-- The pieces of a literal up to its closing quote, collected in reverse. -/
def pieces (acc : List Piece) : List UInt8 → Option (List Piece × List UInt8)
  | [] => none
  | 0x22 :: rest => some (acc.reverse, rest)
  | 0x5c :: 0x75 :: a :: b :: c :: d :: rest =>
    match hex4 a b c d with
    | some n => pieces (.unit n :: acc) rest
    | none => none
  | 0x5c :: e :: rest =>
    match shortEscape e with
    | some b => pieces (.byte b :: acc) rest
    | none => none
  | b :: rest => if b < 0x20 || b == 0x5c then none else pieces (.byte b :: acc) rest

def isHighSurrogate (n : Nat) : Bool := 0xd800 ≤ n && n < 0xdc00

def isLowSurrogate (n : Nat) : Bool := 0xdc00 ≤ n && n < 0xe000

def encodeChar (n : Nat) : List UInt8 := (String.singleton (Char.ofNat n)).toUTF8.toList

/-- The bytes that pieces stand for, collected in reverse; a surrogate needs its other half. -/
def assemble (acc : List UInt8) : List Piece → Option (List UInt8)
  | [] => some acc.reverse
  | .byte b :: rest => assemble (b :: acc) rest
  | .unit h :: .unit l :: rest =>
    if isHighSurrogate h then
      if isLowSurrogate l then
        let n := 0x10000 + (h - 0xd800) * 0x400 + (l - 0xdc00)
        assemble ((encodeChar n).reverse ++ acc) rest
      else none
    else if isLowSurrogate h then none
    else assemble ((encodeChar h).reverse ++ acc) (.unit l :: rest)
  | .unit h :: rest =>
    if isHighSurrogate h || isLowSurrogate h then none
    else assemble ((encodeChar h).reverse ++ acc) rest

def textOf (ps : List Piece) : Option String := do
  let bytes ← assemble [] ps
  let cs ← Text.decodeStrict? bytes
  return String.ofList cs

/-- A string literal behind its opening quote. -/
def readText (input : List UInt8) : Option (Option String × List UInt8) :=
  (pieces [] input).map fun (ps, rest) => (textOf ps, rest)

def isDigit (b : UInt8) : Bool := 0x30 ≤ b && b ≤ 0x39

/-- Digits in front, at least one. -/
def digits (input : List UInt8) : Option (List UInt8 × List UInt8) :=
  match input.takeWhile isDigit with
  | [] => none
  | ds => some (ds, input.dropWhile isDigit)

def integerPart (input : List UInt8) : Option (List UInt8 × List UInt8) :=
  match input with
  | 0x30 :: rest => if (rest.head?.map isDigit).getD false then none else some ([0x30], rest)
  | _ => digits input

def fractionPart (input : List UInt8) : Option (List UInt8 × List UInt8) :=
  match input with
  | 0x2e :: rest => (digits rest).map fun (ds, rest) => (0x2e :: ds, rest)
  | _ => some ([], input)

def exponentPart (input : List UInt8) : Option (List UInt8 × List UInt8) :=
  match input with
  | e :: s :: rest =>
    if e == 0x65 || e == 0x45 then
      if s == 0x2b || s == 0x2d then (digits rest).map fun (ds, rest) => (e :: s :: ds, rest)
      else (digits (s :: rest)).map fun (ds, rest) => (e :: ds, rest)
    else some ([], input)
  | [e] => if e == 0x65 || e == 0x45 then none else some ([], input)
  | [] => some ([], input)

/-- A number's text. -/
def readNumber (input : List UInt8) : Option (String × List UInt8) := do
  let (sign, rest) := match input with
    | 0x2d :: rest => ([0x2d], rest)
    | _ => (([] : List UInt8), input)
  let (whole, rest) ← integerPart rest
  let (fraction, rest) ← fractionPart rest
  let (exponent, rest) ← exponentPart rest
  return (String.ofList (Text.ascii (sign ++ whole ++ fraction ++ exponent)), rest)

def trueBytes : List UInt8 := [0x74, 0x72, 0x75, 0x65]

def falseBytes : List UInt8 := [0x66, 0x61, 0x6c, 0x73, 0x65]

def nullBytes : List UInt8 := [0x6e, 0x75, 0x6c, 0x6c]

def readWord (word : List UInt8) (value : Json) (input : List UInt8) :
    Option (Json × List UInt8) :=
  if word.isPrefixOf input then some (value, input.drop word.length) else none

mutual
/-- A value behind blanks. Two units of fuel are enough for each byte. -/
def readValue : Nat → List UInt8 → Option (Json × List UInt8)
  | 0, _ => none
  | fuel + 1, input =>
    match skipSpace input with
    | [] => none
    | 0x22 :: rest => (readText rest).map fun (s, rest) => (.string s, rest)
    | 0x5b :: rest =>
      match skipSpace rest with
      | 0x5d :: rest => some (.array [], rest)
      | rest => readElements fuel [] rest
    | 0x7b :: rest =>
      match skipSpace rest with
      | 0x7d :: rest => some (.object [], rest)
      | rest => readMembers fuel [] rest
    | b :: rest =>
      if b == 0x74 then readWord trueBytes (.bool true) (b :: rest)
      else if b == 0x66 then readWord falseBytes (.bool false) (b :: rest)
      else if b == 0x6e then readWord nullBytes .null (b :: rest)
      else (readNumber (b :: rest)).map fun (l, rest) => (.number l, rest)

/-- Elements up to the closing bracket, collected in reverse. -/
def readElements : Nat → List Json → List UInt8 → Option (Json × List UInt8)
  | 0, _, _ => none
  | fuel + 1, acc, input =>
    match readValue fuel input with
    | none => none
    | some (v, rest) =>
      match skipSpace rest with
      | 0x2c :: rest => readElements fuel (v :: acc) rest
      | 0x5d :: rest => some (.array (v :: acc).reverse, rest)
      | _ => none

/-- Members up to the closing brace, collected in reverse. -/
def readMembers :
    Nat → List (Option String × Json) → List UInt8 → Option (Json × List UInt8)
  | 0, _, _ => none
  | fuel + 1, acc, input =>
    match skipSpace input with
    | 0x22 :: rest =>
      match readText rest with
      | none => none
      | some (key, rest) =>
        match skipSpace rest with
        | 0x3a :: rest =>
          match readValue fuel rest with
          | none => none
          | some (v, rest) =>
            match skipSpace rest with
            | 0x2c :: rest => readMembers fuel ((key, v) :: acc) rest
            | 0x7d :: rest => some (.object ((key, v) :: acc).reverse, rest)
            | _ => none
        | _ => none
    | _ => none
end

/-- The one value that the bytes write. -/
def parse? (input : List UInt8) : Option Json :=
  match readValue (2 * input.length + 2) input with
  | some (v, rest) => if (skipSpace rest).isEmpty then some v else none
  | none => none

end ThreeAddress.Json
