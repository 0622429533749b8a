import ThreeAddress.Enumerated

namespace ThreeAddress

inductive State where
  | start
  | typeKw
  | typeName
  | typeEq
  | typeTarget
  | typeEnd
  | globalKw
  | globalName
  | globalColon
  | globalType
  | globalEq
  | globalInit
  | globalEnd
  | funcKw
  | funcName
  | paramOpen
  | paramName
  | paramColon
  | paramType
  | paramComma
  | paramClose
  | noParams
  | retColon
  | retType
  | bodyOpen
  | bodyClose
  | localKw
  | localName
  | localColon
  | localType
  | localEq
  | stmtName
  | assignEq
  | callStmt
  | callStmtArg
  | callStmtComma
  | callStmtClose
  | returnKw
  | operand
  | operandName
  | callOpen
  | callArg
  | callComma
  | callClose
  | binOp
  | stmtEnd
  | finished
  deriving DecidableEq, Repr

/-- What entering a state does. -/
inductive Action where
  /-- nothing -/
  | skip
  /-- record the token as a leaf -/
  | shift
  /-- open a construct named by the state -/
  | begin
  /-- open a construct and record the token -/
  | beginShift
  /-- open a construct around the node recorded last -/
  | wrap
  /-- rename the innermost open construct -/
  | retag
  /-- close the construct and keep it as an operand of its parent -/
  | fold
  /-- close the construct and attach it to the enclosing block -/
  | reduce
  /-- close the construct and make it the block that statements attach to -/
  | openBlock
  /-- finish the innermost block -/
  | closeBlock
  /-- record the leaf of the end of file -/
  | finish
  deriving DecidableEq, Repr

namespace State

def all : List State :=
  [.start, .typeKw, .typeName, .typeEq, .typeTarget, .typeEnd, .globalKw, .globalName,
   .globalColon, .globalType, .globalEq, .globalInit, .globalEnd, .funcKw, .funcName, .paramOpen,
   .paramName, .paramColon, .paramType, .paramComma, .paramClose, .noParams, .retColon, .retType,
   .bodyOpen, .bodyClose, .localKw, .localName, .localColon, .localType, .localEq, .stmtName,
   .assignEq, .callStmt, .callStmtArg, .callStmtComma, .callStmtClose, .returnKw, .operand,
   .operandName, .callOpen, .callArg, .callComma, .callClose, .binOp, .stmtEnd, .finished]

def name : State → String
  | .start => "Start"
  | .typeKw => "TypeKw"
  | .typeName => "TypeName"
  | .typeEq => "TypeEq"
  | .typeTarget => "TypeTarget"
  | .typeEnd => "TypeEnd"
  | .globalKw => "GlobalKw"
  | .globalName => "GlobalName"
  | .globalColon => "GlobalColon"
  | .globalType => "GlobalType"
  | .globalEq => "GlobalEq"
  | .globalInit => "GlobalInit"
  | .globalEnd => "GlobalEnd"
  | .funcKw => "FuncKw"
  | .funcName => "FuncName"
  | .paramOpen => "ParamOpen"
  | .paramName => "ParamName"
  | .paramColon => "ParamColon"
  | .paramType => "ParamType"
  | .paramComma => "ParamComma"
  | .paramClose => "ParamClose"
  | .noParams => "NoParams"
  | .retColon => "RetColon"
  | .retType => "RetType"
  | .bodyOpen => "BodyOpen"
  | .bodyClose => "BodyClose"
  | .localKw => "LocalKw"
  | .localName => "LocalName"
  | .localColon => "LocalColon"
  | .localType => "LocalType"
  | .localEq => "LocalEq"
  | .stmtName => "StmtName"
  | .assignEq => "AssignEq"
  | .callStmt => "CallStmt"
  | .callStmtArg => "CallStmtArg"
  | .callStmtComma => "CallStmtComma"
  | .callStmtClose => "CallStmtClose"
  | .returnKw => "ReturnKw"
  | .operand => "Operand"
  | .operandName => "OperandName"
  | .callOpen => "CallOpen"
  | .callArg => "CallArg"
  | .callComma => "CallComma"
  | .callClose => "CallClose"
  | .binOp => "BinOp"
  | .stmtEnd => "StmtEnd"
  | .finished => "Finished"

instance : Enumerated State where
  all := all
  index s := s.ctorIdx
  name := name
  all_index s := by cases s <;> rfl

def action : State → Action
  | .start | .typeEq | .globalColon | .globalEq | .paramOpen | .paramColon | .noParams | .retColon
  | .localColon | .localEq | .callStmtComma | .callStmtClose | .callComma => .skip
  | .typeName | .typeTarget | .globalName | .globalType | .globalInit | .funcName | .paramType
  | .retType | .localName | .localType | .callStmtArg | .operand | .operandName | .callArg
  | .binOp => .shift
  | .typeKw | .globalKw | .funcKw | .localKw | .returnKw => .begin
  | .paramName | .stmtName => .beginShift
  | .callOpen => .wrap
  | .assignEq | .callStmt => .retag
  | .paramComma | .paramClose | .callClose => .fold
  | .typeEnd | .globalEnd | .stmtEnd => .reduce
  | .bodyOpen => .openBlock
  | .bodyClose => .closeBlock
  | .finished => .finish

end State

def Action.name : Action → String
  | .skip => "Skip"
  | .shift => "Shift"
  | .begin => "Begin"
  | .beginShift => "BeginShift"
  | .wrap => "Wrap"
  | .retag => "Retag"
  | .fold => "Fold"
  | .reduce => "Reduce"
  | .openBlock => "Open"
  | .closeBlock => "Close"
  | .finish => "Finish"

end ThreeAddress
