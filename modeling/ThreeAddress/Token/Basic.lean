import ThreeAddress.Token.Kind

namespace ThreeAddress

/-- A place in a file, named by the file's label. -/
structure Site where
  file : String
  line : Nat
  column : Nat
  deriving DecidableEq, Repr

def Site.text (s : Site) : String := s!"{s.file}:{s.line}:{s.column}"

structure Token where
  kind : TokenKind
  lexeme : String
  site : Site
  deriving DecidableEq, Repr

namespace Token

/-- The file of a list of tokens is that of its first. -/
def fileOf : List Token → String
  | [] => ""
  | t :: _ => t.site.file

end Token

end ThreeAddress
