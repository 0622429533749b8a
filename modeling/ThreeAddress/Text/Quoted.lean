import ThreeAddress.Text.Printable

namespace ThreeAddress.Text

def hexDigits (n : Nat) : List Char := Nat.toDigits 16 n

/-- One character between the given quotes. -/
def escape (quote c : Char) : List Char :=
  if c = '\x00' then ['\\', '0']
  else if c = '\t' then ['\\', 't']
  else if c = '\r' then ['\\', 'r']
  else if c = '\n' then ['\\', 'n']
  else if c = '\\' || c = quote then ['\\', c]
  else if isPrintable c then [c]
  else ['\\', 'u', '\x7b'] ++ hexDigits c.toNat ++ ['\x7d']

def quotedChar (c : Char) : String := String.ofList (['\''] ++ escape '\'' c ++ ['\''])

def quoted (s : String) : String := String.ofList (['"'] ++ s.toList.flatMap (escape '"') ++ ['"'])

end ThreeAddress.Text
