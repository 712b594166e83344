import JackCompiler.CommandLine.Options
import JackCompiler.CommandLine.Run
import JackCompiler.CommandLine.Session
import JackCompiler.CommandLine.Sources
import JackCompiler.Compile
import JackCompiler.Diagnostic
import JackCompiler.Emit.Class
import JackCompiler.Emit.Expression
import JackCompiler.Emit.Statement
import JackCompiler.Error
import JackCompiler.FileSystem
import JackCompiler.FileTree
import JackCompiler.Instruction.Basic
import JackCompiler.Instruction.Listing
import JackCompiler.Instruction.Parser
import JackCompiler.Labels
import JackCompiler.Main
import JackCompiler.Path
import JackCompiler.Position
import JackCompiler.Proofs.CallCounts
import JackCompiler.Proofs.Calls
import JackCompiler.Proofs.CodeEncoding
import JackCompiler.Proofs.CodeJuxtaposition
import JackCompiler.Proofs.CodeText
import JackCompiler.Proofs.Diagnosis
import JackCompiler.Proofs.DiagnosticMark
import JackCompiler.Proofs.Emission
import JackCompiler.Proofs.EmittedNames
import JackCompiler.Proofs.ExpressionCode
import JackCompiler.Proofs.Fallible
import JackCompiler.Proofs.Files.CodePaths
import JackCompiler.Proofs.Files.Collection
import JackCompiler.Proofs.Files.Delivery
import JackCompiler.Proofs.Files.Effects
import JackCompiler.Proofs.Files.Making
import JackCompiler.Proofs.Files.Mirror
import JackCompiler.Proofs.Files.Pieces
import JackCompiler.Proofs.Files.Sources
import JackCompiler.Proofs.Files.Storing
import JackCompiler.Proofs.Files.Tree
import JackCompiler.Proofs.Files.Walk
import JackCompiler.Proofs.Files.Written
import JackCompiler.Proofs.FirstUndeclared
import JackCompiler.Proofs.FreshLabels
import JackCompiler.Proofs.InstructionLanguage
import JackCompiler.Proofs.Isolation
import JackCompiler.Proofs.LabelPairs
import JackCompiler.Proofs.LabelShift
import JackCompiler.Proofs.Lexing.Juxtaposition
import JackCompiler.Proofs.Lexing.Layout
import JackCompiler.Proofs.Lexing.OneLine
import JackCompiler.Proofs.Lexing.Places
import JackCompiler.Proofs.Lexing.Progress
import JackCompiler.Proofs.Lexing.Resume
import JackCompiler.Proofs.Lexing.RoundTrip
import JackCompiler.Proofs.Lexing.Steps
import JackCompiler.Proofs.Lexing.Tiling
import JackCompiler.Proofs.ListingFields
import JackCompiler.Proofs.Literals
import JackCompiler.Proofs.Machine
import JackCompiler.Proofs.Meaning
import JackCompiler.Proofs.PlainText
import JackCompiler.Proofs.ReadBack
import JackCompiler.Proofs.Reading.Body
import JackCompiler.Proofs.Reading.Class
import JackCompiler.Proofs.Reading.Expression
import JackCompiler.Proofs.Reading.FirstFault
import JackCompiler.Proofs.Reading.Lookahead
import JackCompiler.Proofs.RunEffect
import JackCompiler.Proofs.RunLabels
import JackCompiler.Proofs.SourceClass
import JackCompiler.Proofs.StackDepth
import JackCompiler.Proofs.StatementCode
import JackCompiler.Proofs.StorageBounds
import JackCompiler.Proofs.SubroutineCode
import JackCompiler.Proofs.SymbolHistory
import JackCompiler.Proofs.Terms
import JackCompiler.Symbols
import JackCompiler.Syntax.Reader.Body
import JackCompiler.Syntax.Reader.Class
import JackCompiler.Syntax.Reader.Expression
import JackCompiler.Syntax.Spelling
import JackCompiler.Syntax.Tree
import JackCompiler.Text.Blank
import JackCompiler.Text.Lines
import JackCompiler.Text.Numeral
import JackCompiler.Text.Style
import JackCompiler.Token.Basic
import JackCompiler.Token.Cursor
import JackCompiler.Token.Lexer
import JackCompiler.Token.Scanner
import JackCompiler.Token.Spelling
