import ThreeAddress.Token.Numeral

namespace ThreeAddress

structure Config where
  /-- tasks that run at once -/
  workers : Nat
  /-- limit of a task in milliseconds -/
  deadline : Option Nat
  /-- the table file to use in place of the tables of the language -/
  tablesPath : Option String
  emitJson : Bool
  dumpTokens : Bool
  dumpTree : Bool
  checkOnly : Bool
  deriving DecidableEq, Repr

abbrev Environment := String → Option String

namespace Environment

/-- A variable that holds a number below 2^64. -/
def word? (env : Environment) (name : String) : Option Nat :=
  (env name).bind fun v => Numeral.word64? 10 v.toList

/-- Every value but `0` and `false`, in any case, counts as set. -/
def flag (env : Environment) (name : String) (missing : Bool) : Bool :=
  match env name with
  | none => missing
  | some v => !(v == "0" || v.toList.map Char.toLower == "false".toList)

end Environment

namespace Config

/-- One worker and no limit. -/
def default : Config := ⟨1, none, none, false, false, false, false⟩

def ofEnvironment (env : Environment) : Config :=
  let workers := ((env.word? "TACC_WORKERS").filter (0 < ·)).getD default.workers
  { default with
    workers := if env.flag "TACC_SEQUENTIAL" false then 1 else workers
    deadline := env.word? "TACC_DEADLINE_MS"
    tablesPath := env "TACC_TABLES" }

end Config

end ThreeAddress
