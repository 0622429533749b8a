import ThreeAddress.Table.Basic
import ThreeAddress.Token.Kind
import ThreeAddress.Tree.State

namespace ThreeAddress

abbrev TransitionTable := Table State TokenKind State

namespace Grammar

/-- Between declarations. -/
def item : TokenKind → Option State
  | .typeWord => some .typeKw
  | .varWord => some .globalKw
  | .funcWord => some .funcKw
  | .eof => some .finished
  | _ => none

/-- Between statements. -/
def statement : TokenKind → Option State
  | .varWord => some .localKw
  | .ident => some .stmtName
  | .returnWord => some .returnKw
  | .rbrace => some .bodyClose
  | _ => none

def typeName (next : State) (k : TokenKind) : Option State :=
  if k.isTypeName then some next else none

def literal (next : State) : TokenKind → Option State
  | .number | .trueWord | .falseWord => some next
  | _ => none

/-- An argument of a call: a literal or a name. -/
def value (next : State) : TokenKind → Option State
  | .number | .trueWord | .falseWord | .ident => some next
  | _ => none

/-- An operand: a literal, or a name that may turn out to be called. -/
def operand : TokenKind → Option State
  | .number | .trueWord | .falseWord => some .operand
  | .ident => some .operandName
  | _ => none

/-- Behind an operand. -/
def operator : TokenKind → Option State
  | .plus | .minus | .star | .slash | .percent | .lt | .gt | .le | .ge | .eqEq | .notEq
  | .andWord | .orWord => some .binOp
  | .semi => some .stmtEnd
  | _ => none

/-- The one kind that leads on. -/
def only (want : TokenKind) (next : State) (k : TokenKind) : Option State :=
  if k = want then some next else none

def next (s : State) (k : TokenKind) : Option State :=
  match s with
  | .start | .typeEnd | .globalEnd | .bodyClose => item k
  | .typeKw => only .ident .typeName k
  | .typeName => only .assign .typeEq k
  | .typeEq => typeName .typeTarget k
  | .typeTarget => only .semi .typeEnd k
  | .globalKw => only .ident .globalName k
  | .globalName => only .colon .globalColon k
  | .globalColon => typeName .globalType k
  | .globalType => (only .semi .globalEnd k).or (only .assign .globalEq k)
  | .globalEq => literal .globalInit k
  | .globalInit => only .semi .globalEnd k
  | .funcKw => only .ident .funcName k
  | .funcName => only .lparen .paramOpen k
  | .paramOpen => (only .ident .paramName k).or (only .rparen .noParams k)
  | .paramName => only .colon .paramColon k
  | .paramColon => typeName .paramType k
  | .paramType => (only .comma .paramComma k).or (only .rparen .paramClose k)
  | .paramComma => only .ident .paramName k
  | .paramClose | .noParams => only .colon .retColon k
  | .retColon => typeName .retType k
  | .retType => only .lbrace .bodyOpen k
  | .bodyOpen | .stmtEnd => statement k
  | .localKw => only .ident .localName k
  | .localName => only .colon .localColon k
  | .localColon => typeName .localType k
  | .localType => (only .semi .stmtEnd k).or (only .assign .localEq k)
  | .localEq | .assignEq | .returnKw | .binOp => operand k
  | .stmtName => (only .assign .assignEq k).or (only .lparen .callStmt k)
  | .callStmt => (value .callStmtArg k).or (only .rparen .callStmtClose k)
  | .callStmtArg => (only .comma .callStmtComma k).or (only .rparen .callStmtClose k)
  | .callStmtComma => value .callStmtArg k
  | .callStmtClose => only .semi .stmtEnd k
  | .operand | .callClose => operator k
  | .operandName => (only .lparen .callOpen k).or (operator k)
  | .callOpen => (value .callArg k).or (only .rparen .callClose k)
  | .callArg => (only .comma .callComma k).or (only .rparen .callClose k)
  | .callComma => value .callArg k
  | .finished => none

def table : TransitionTable := ⟨next⟩

end Grammar

end ThreeAddress
