import ThreeAddress.Analysis.Batch
import ThreeAddress.Analysis.Body
import ThreeAddress.Analysis.Declaration
import ThreeAddress.Analysis.Literal
import ThreeAddress.Analysis.Resolution
import ThreeAddress.Analysis.TypeName
import ThreeAddress.Batch.Benchmark
import ThreeAddress.Batch.Command
import ThreeAddress.Batch.Compile
import ThreeAddress.Batch.Config
import ThreeAddress.Batch.Invocation
import ThreeAddress.Batch.Report
import ThreeAddress.Batch.Task
import ThreeAddress.Budget
import ThreeAddress.Code.Emit
import ThreeAddress.Code.Instruction
import ThreeAddress.Code.Phase
import ThreeAddress.Diagnostic
import ThreeAddress.Enumerated
import ThreeAddress.Files.Path
import ThreeAddress.Files.Workspace
import ThreeAddress.Json.Basic
import ThreeAddress.Json.Printer
import ThreeAddress.Json.Reader
import ThreeAddress.Main
import ThreeAddress.Operator
import ThreeAddress.Proofs.Acceptance
import ThreeAddress.Proofs.AliasChain
import ThreeAddress.Proofs.AliasFaults
import ThreeAddress.Proofs.AliasGraph
import ThreeAddress.Proofs.Bodies
import ThreeAddress.Proofs.CodeShape
import ThreeAddress.Proofs.CodeText
import ThreeAddress.Proofs.CodeTyping
import ThreeAddress.Proofs.Company
import ThreeAddress.Proofs.Compilation
import ThreeAddress.Proofs.Concatenation
import ThreeAddress.Proofs.Conservation
import ThreeAddress.Proofs.Decoding
import ThreeAddress.Proofs.Delivery
import ThreeAddress.Proofs.Digits
import ThreeAddress.Proofs.Disturbance
import ThreeAddress.Proofs.Drawing
import ThreeAddress.Proofs.Emission
import ThreeAddress.Proofs.Faults
import ThreeAddress.Proofs.FirstSeen
import ThreeAddress.Proofs.Generation
import ThreeAddress.Proofs.Headers
import ThreeAddress.Proofs.Isolation
import ThreeAddress.Proofs.JsonText
import ThreeAddress.Proofs.Layout
import ThreeAddress.Proofs.Lexeme
import ThreeAddress.Proofs.Likeness
import ThreeAddress.Proofs.Lowering
import ThreeAddress.Proofs.Merging
import ThreeAddress.Proofs.Moving
import ThreeAddress.Proofs.Newline
import ThreeAddress.Proofs.NumeralForms
import ThreeAddress.Proofs.OpenPhrase
import ThreeAddress.Proofs.Phrase
import ThreeAddress.Proofs.Position
import ThreeAddress.Proofs.Precedence
import ThreeAddress.Proofs.Printing
import ThreeAddress.Proofs.Program
import ThreeAddress.Proofs.Pulling
import ThreeAddress.Proofs.RawRuns
import ThreeAddress.Proofs.Reading
import ThreeAddress.Proofs.Recognition
import ThreeAddress.Proofs.Redeclaration
import ThreeAddress.Proofs.Renumbering
import ThreeAddress.Proofs.Repetition
import ThreeAddress.Proofs.Results
import ThreeAddress.Proofs.RunEnds
import ThreeAddress.Proofs.Runs
import ThreeAddress.Proofs.SampleMeaning
import ThreeAddress.Proofs.SampleText
import ThreeAddress.Proofs.SavedTables
import ThreeAddress.Proofs.Scan
import ThreeAddress.Proofs.Shadowing
import ThreeAddress.Proofs.Signature
import ThreeAddress.Proofs.Splitting
import ThreeAddress.Proofs.Symbols
import ThreeAddress.Proofs.Tiling
import ThreeAddress.Proofs.Transcript
import ThreeAddress.Proofs.Typing
import ThreeAddress.Proofs.Undeclared
import ThreeAddress.Proofs.Validity
import ThreeAddress.Proofs.Whereabouts
import ThreeAddress.Proofs.WordSet
import ThreeAddress.Proofs.Words
import ThreeAddress.Sample.Dice
import ThreeAddress.Sample.Generate
import ThreeAddress.Sample.Program
import ThreeAddress.Symbol
import ThreeAddress.Table.Basic
import ThreeAddress.Table.File
import ThreeAddress.Text.Printable
import ThreeAddress.Text.Quoted
import ThreeAddress.Text.Utf8
import ThreeAddress.Token.Basic
import ThreeAddress.Token.Kind
import ThreeAddress.Token.Numeral
import ThreeAddress.Token.Reply
import ThreeAddress.Token.Run
import ThreeAddress.Token.Stream
import ThreeAddress.Token.WordTree
import ThreeAddress.Tree.Builder
import ThreeAddress.Tree.Grammar
import ThreeAddress.Tree.Node
import ThreeAddress.Tree.Parse
import ThreeAddress.Tree.State
import ThreeAddress.Tree.View
import ThreeAddress.Ty
