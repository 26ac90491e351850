import EnglishScript.CommandLine
import EnglishScript.Compiler
import EnglishScript.Compiler.Report
import EnglishScript.Config
import EnglishScript.Decimal.Binary
import EnglishScript.Decimal.Layout
import EnglishScript.Decimal.Reader
import EnglishScript.Decimal.Shortest
import EnglishScript.Duration
import EnglishScript.FileTree
import EnglishScript.Machine
import EnglishScript.Main
import EnglishScript.Pipeline
import EnglishScript.Prompt
import EnglishScript.Python.Check
import EnglishScript.Python.Expression
import EnglishScript.Python.Literal
import EnglishScript.Python.Reader
import EnglishScript.Python.Source
import EnglishScript.Python.Statement
import EnglishScript.Python.Symbol
import EnglishScript.Run.Error
import EnglishScript.Run.Evaluation
import EnglishScript.Run.Evaluator
import EnglishScript.Run.Value
import EnglishScript.Runner
import EnglishScript.Session
import EnglishScript.SourceFile
import EnglishScript.TestCase
import EnglishScript.Text
import EnglishScript.Text.Blank
import EnglishScript.Text.JsonString
import EnglishScript.Text.Printable
import EnglishScript.Text.Quoted
import EnglishScript.Text.Utf8
import EnglishScript.Token
import EnglishScript.Token.Lexer
import EnglishScript.Token.Phrase
import EnglishScript.Tree
import EnglishScript.Tree.Draft
import EnglishScript.Tree.Fault
import EnglishScript.Tree.Listing
import EnglishScript.Tree.ParseError
import EnglishScript.Tree.Parser
import EnglishScript.Yaml.Cursor
import EnglishScript.Yaml.Decode
import EnglishScript.Yaml.Node
import EnglishScript.Yaml.Scalar
import EnglishScript.Yaml.Token
import EnglishScript.Yaml.Value
import EnglishScript.Proofs.Faultless
import EnglishScript.Proofs.GeneratedLines
import EnglishScript.Proofs.GeneratedSymbols
import EnglishScript.Proofs.Grammar
import EnglishScript.Proofs.InlineReading
import EnglishScript.Proofs.Lexeme
import EnglishScript.Proofs.LineReading
import EnglishScript.Proofs.LiteralQuote
import EnglishScript.Proofs.NormalForm
import EnglishScript.Proofs.NumberText
import EnglishScript.Proofs.ParserCompleteness
import EnglishScript.Proofs.ParserSoundness
import EnglishScript.Proofs.ReadBack
import EnglishScript.Proofs.RoundTrip
import EnglishScript.Proofs.SourceTree
import EnglishScript.Proofs.StatementCount
import EnglishScript.Proofs.TextPlace
import EnglishScript.Proofs.Tiling
import EnglishScript.Proofs.Completion
import EnglishScript.Proofs.LineLexing
import EnglishScript.Proofs.Relabel
import EnglishScript.Proofs.LineJoin
import EnglishScript.Proofs.Batch
import EnglishScript.Proofs.Course
import EnglishScript.Proofs.StepLimit
import EnglishScript.Proofs.TokenText
import EnglishScript.Proofs.Layout
import EnglishScript.Proofs.Artifacts
import EnglishScript.Proofs.Interpreters
import EnglishScript.Proofs.Locality
import EnglishScript.Proofs.Descent
import EnglishScript.Proofs.DescentMirror
import EnglishScript.Proofs.AcceptedSymbols
import EnglishScript.Proofs.AcceptedReading
import EnglishScript.Proofs.AcceptedText
import EnglishScript.Proofs.ExactRounding
import EnglishScript.Proofs.WholeFloat
import EnglishScript.Proofs.WholeArithmetic
import EnglishScript.Proofs.ExactRun
import EnglishScript.Proofs.CarriageReturn
import EnglishScript.Proofs.ErrorPlace
import EnglishScript.Proofs.ShortestDecimal
import EnglishScript.Proofs.DecimalText
import EnglishScript.Proofs.FaithfulListing
import EnglishScript.Proofs.CodePointOrder
import EnglishScript.Proofs.LiteralScan
import EnglishScript.Proofs.NearestRounding
import EnglishScript.Proofs.FewestDigits
import EnglishScript.Proofs.NumberLayout
import EnglishScript.Proofs.DecimalReading
import EnglishScript.Proofs.RereadExpression
import EnglishScript.Proofs.LeafOrder
import EnglishScript.Proofs.PhraseRecognition
import EnglishScript.Proofs.PromptBlocks
