import ThreeAddress.Batch.Config
import ThreeAddress.Diagnostic

namespace ThreeAddress

inductive Flag where
  | emitJson
  | dumpTokens
  | dumpTree
  | sequential
  | check
  deriving DecidableEq, Repr

namespace Flag

def all : List Flag := [.emitJson, .dumpTokens, .dumpTree, .sequential, .check]

def text : Flag → String
  | .emitJson => "--emit-json"
  | .dumpTokens => "--dump-tokens"
  | .dumpTree => "--dump-tree"
  | .sequential => "--sequential"
  | .check => "--check"

def help : Flag → String
  | .emitJson => "print the batch output as JSON"
  | .dumpTokens => "log each file's token count"
  | .dumpTree => "print each parse tree"
  | .sequential => "use one worker thread"
  | .check => "stop after semantic analysis"

def ofText? (s : String) : Option Flag := all.find? fun f => f.text == s

def apply (c : Config) : Flag → Config
  | .emitJson => { c with emitJson := true }
  | .dumpTokens => { c with dumpTokens := true }
  | .dumpTree => { c with dumpTree := true }
  | .sequential => { c with workers := 1 }
  | .check => { c with checkOnly := true }

def unknownMessage (arg : String) : String := s!"flag `{arg}` does not exist"

/-- The flags that arguments name, and the arguments that name none. -/
def ofArguments (args : List String) : List Flag × List String :=
  (args.filterMap ofText?, args.filter fun a => (ofText? a).isNone)

theorem ofText?_text (f : Flag) : ofText? f.text = some f := by cases f <;> decide

/-- A line of the usage text. -/
def usageLine (f : Flag) : String :=
  let margin := String.ofList (List.replicate (14 - f.text.length) ' ')
  s!"  {f.text}{margin} {f.help}\n"

end Flag

def usage : String :=
  "usage: tacc [flags] <file>...\n\nflags:\n" ++ String.join (Flag.all.map Flag.usageLine)

structure Invocation where
  flags : List Flag
  files : List String
  unknown : List String
  deriving DecidableEq, Repr

namespace Invocation

def isFlag (arg : String) : Bool := arg.toList.head? == some '-'

def ofArguments (args : List String) : Invocation :=
  let (flags, unknown) := Flag.ofArguments (args.filter isFlag)
  ⟨flags, args.filter fun a => !isFlag a, unknown⟩

def configure (i : Invocation) (c : Config) : Config := i.flags.foldl Flag.apply c

/-- A warning for each argument that looks like a flag and names none. -/
def warnings (i : Invocation) : List Diagnostic :=
  i.unknown.map fun a => .warning .flag (Flag.unknownMessage a)

end Invocation

end ThreeAddress
