import ThreeAddress.Json.Basic

namespace ThreeAddress.Json

def lowHex (n : Nat) : List Char :=
  let ds := Nat.toDigits 16 n
  List.replicate (4 - ds.length) '0' ++ ds

/-- Quotes, backslashes and control characters are escaped; all else is written as it is. -/
def escapeChar (c : Char) : List Char :=
  if c = '"' then ['\\', '"']
  else if c = '\\' then ['\\', '\\']
  else if c = '\x08' then ['\\', 'b']
  else if c = '\x0c' then ['\\', 'f']
  else if c = '\n' then ['\\', 'n']
  else if c = '\r' then ['\\', 'r']
  else if c = '\t' then ['\\', 't']
  else if c.toNat < 0x20 then ['\\', 'u'] ++ lowHex c.toNat
  else [c]

def quote (s : String) : String := String.ofList ('"' :: s.toList.flatMap escapeChar ++ ['"'])

def quoteText (s : Option String) : String := quote (s.getD "")

mutual
/-- Appends the value to a text. -/
def write (out : String) : Json → String
  | .null => out ++ "null"
  | .bool b => out ++ (if b then "true" else "false")
  | .number l => out ++ l
  | .string s => out ++ quoteText s
  | .array es => (writeElements (out ++ "[") true es) ++ "]"
  | .object ms => (writeMembers (out ++ "\x7b") true ms) ++ "\x7d"

def writeElements (out : String) (first : Bool) : List Json → String
  | [] => out
  | e :: es => writeElements (write (if first then out else out ++ ",") e) false es

def writeMembers (out : String) (first : Bool) : List (Option String × Json) → String
  | [] => out
  | (k, v) :: ms =>
    let out := if first then out else out ++ ","
    writeMembers (write (out ++ quoteText k ++ ":") v) false ms
end

/-- The value on one line. -/
def compact (j : Json) : String := write "" j

def newLine (depth : Nat) : String := "\n" ++ String.ofList (List.replicate (2 * depth) ' ')

mutual
def writePretty (depth : Nat) (out : String) : Json → String
  | .null => out ++ "null"
  | .bool b => out ++ (if b then "true" else "false")
  | .number l => out ++ l
  | .string s => out ++ quoteText s
  | .array [] => out ++ "[]"
  | .array es => prettyElements (depth + 1) (out ++ "[") true es ++ newLine depth ++ "]"
  | .object [] => out ++ "\x7b\x7d"
  | .object ms => prettyMembers (depth + 1) (out ++ "\x7b") true ms ++ newLine depth ++ "\x7d"

def prettyElements (depth : Nat) (out : String) (first : Bool) : List Json → String
  | [] => out
  | e :: es =>
    let out := (if first then out else out ++ ",") ++ newLine depth
    prettyElements depth (writePretty depth out e) false es

def prettyMembers (depth : Nat) (out : String) (first : Bool) :
    List (Option String × Json) → String
  | [] => out
  | (k, v) :: ms =>
    let out := (if first then out else out ++ ",") ++ newLine depth
    prettyMembers depth (writePretty depth (out ++ quoteText k ++ ": ") v) false ms
end

/-- The value with one element or member a line. -/
def pretty (j : Json) : String := writePretty 0 "" j

end ThreeAddress.Json
