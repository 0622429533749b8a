import ThreeAddress.Enumerated

namespace ThreeAddress

inductive TokenKind where
  | ident
  | number
  | typeWord
  | varWord
  | funcWord
  | returnWord
  | intWord
  | floatWord
  | boolWord
  | trueWord
  | falseWord
  | andWord
  | orWord
  | semi
  | colon
  | comma
  | lparen
  | rparen
  | lbrace
  | rbrace
  | assign
  | plus
  | minus
  | star
  | slash
  | percent
  | lt
  | gt
  | le
  | ge
  | eqEq
  | notEq
  | eof
  deriving DecidableEq, Repr

namespace TokenKind

def all : List TokenKind :=
  [.ident, .number, .typeWord, .varWord, .funcWord, .returnWord, .intWord, .floatWord, .boolWord,
   .trueWord, .falseWord, .andWord, .orWord, .semi, .colon, .comma, .lparen, .rparen, .lbrace,
   .rbrace, .assign, .plus, .minus, .star, .slash, .percent, .lt, .gt, .le, .ge, .eqEq, .notEq,
   .eof]

def name : TokenKind → String
  | .ident => "Ident"
  | .number => "Number"
  | .typeWord => "Type"
  | .varWord => "Var"
  | .funcWord => "Func"
  | .returnWord => "Return"
  | .intWord => "Int"
  | .floatWord => "Float"
  | .boolWord => "Bool"
  | .trueWord => "True"
  | .falseWord => "False"
  | .andWord => "And"
  | .orWord => "Or"
  | .semi => "Semi"
  | .colon => "Colon"
  | .comma => "Comma"
  | .lparen => "LParen"
  | .rparen => "RParen"
  | .lbrace => "LBrace"
  | .rbrace => "RBrace"
  | .assign => "Assign"
  | .plus => "Plus"
  | .minus => "Minus"
  | .star => "Star"
  | .slash => "Slash"
  | .percent => "Percent"
  | .lt => "Lt"
  | .gt => "Gt"
  | .le => "Le"
  | .ge => "Ge"
  | .eqEq => "EqEq"
  | .notEq => "NotEq"
  | .eof => "Eof"

instance : Enumerated TokenKind where
  all := all
  index k := k.ctorIdx
  name := name
  all_index k := by cases k <;> rfl

/-- Reserved words, in the order in which they are loaded into the word tree. -/
def reserved : List (String × TokenKind) :=
  [("type", .typeWord), ("var", .varWord), ("func", .funcWord), ("return", .returnWord),
   ("int", .intWord), ("float", .floatWord), ("bool", .boolWord), ("true", .trueWord),
   ("false", .falseWord), ("and", .andWord), ("or", .orWord)]

def ofReserved? (word : String) : Option TokenKind :=
  (reserved.find? fun p => p.1 == word).map (·.2)

/-- Punctuators of two characters. -/
def pair? : Char → Char → Option TokenKind
  | '<', '=' => some .le
  | '>', '=' => some .ge
  | '=', '=' => some .eqEq
  | '!', '=' => some .notEq
  | _, _ => none

/-- Punctuators of one character. -/
def single? : Char → Option TokenKind
  | ';' => some .semi
  | ':' => some .colon
  | ',' => some .comma
  | '(' => some .lparen
  | ')' => some .rparen
  | '{' => some .lbrace
  | '}' => some .rbrace
  | '=' => some .assign
  | '+' => some .plus
  | '-' => some .minus
  | '*' => some .star
  | '/' => some .slash
  | '%' => some .percent
  | '<' => some .lt
  | '>' => some .gt
  | _ => none

/-- The text of every token of this kind, where there is only one. -/
def spelling? : TokenKind → Option String
  | .ident | .number | .eof => none
  | .typeWord => some "type"
  | .varWord => some "var"
  | .funcWord => some "func"
  | .returnWord => some "return"
  | .intWord => some "int"
  | .floatWord => some "float"
  | .boolWord => some "bool"
  | .trueWord => some "true"
  | .falseWord => some "false"
  | .andWord => some "and"
  | .orWord => some "or"
  | .semi => some ";"
  | .colon => some ":"
  | .comma => some ","
  | .lparen => some "("
  | .rparen => some ")"
  | .lbrace => some "\x7b"
  | .rbrace => some "\x7d"
  | .assign => some "="
  | .plus => some "+"
  | .minus => some "-"
  | .star => some "*"
  | .slash => some "/"
  | .percent => some "%"
  | .lt => some "<"
  | .gt => some ">"
  | .le => some "<="
  | .ge => some ">="
  | .eqEq => some "=="
  | .notEq => some "!="

/-- The kind in words: its spelling, or what it stands for. -/
def describe (k : TokenKind) : String :=
  match k with
  | .ident => "identifier"
  | .number => "number"
  | .eof => "end of file"
  | k => k.spelling?.getD "?"

/-- The kind as messages show it: spellings stand between backquotes. -/
def shown (k : TokenKind) : String :=
  match k.spelling? with
  | some s => "`" ++ s ++ "`"
  | none => k.describe

def isTypeName : TokenKind → Bool
  | .intWord | .floatWord | .boolWord | .ident => true
  | _ => false

/-- A reserved word is spelled as its kind says. -/
theorem spelling?_of_mem_reserved {word : String} {k : TokenKind} (h : (word, k) ∈ reserved) :
    k.spelling? = some word := by
  simp only [reserved, List.mem_cons, Prod.mk.injEq, List.not_mem_nil, or_false] at h
  rcases h with ⟨rfl, rfl⟩ | ⟨rfl, rfl⟩ | ⟨rfl, rfl⟩ | ⟨rfl, rfl⟩ | ⟨rfl, rfl⟩ | ⟨rfl, rfl⟩ |
    ⟨rfl, rfl⟩ | ⟨rfl, rfl⟩ | ⟨rfl, rfl⟩ | ⟨rfl, rfl⟩ | ⟨rfl, rfl⟩ <;> rfl

theorem spelling?_of_pair? {c d : Char} {k : TokenKind} (h : pair? c d = some k) :
    k.spelling? = some (String.ofList [c, d]) := by
  unfold pair? at h
  split at h <;> cases h <;> rfl

theorem spelling?_of_single? {c : Char} {k : TokenKind} (h : single? c = some k) :
    k.spelling? = some (String.ofList [c]) := by
  unfold single? at h
  split at h <;> cases h <;> rfl

end TokenKind

end ThreeAddress
