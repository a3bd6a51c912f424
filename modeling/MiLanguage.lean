import MiLanguage.Analysis.Run
import MiLanguage.Analysis.State
import MiLanguage.CommandLine.Arguments
import MiLanguage.CommandLine.Run
import MiLanguage.Datatype.Basic
import MiLanguage.Decimal.Text
import MiLanguage.Declaration
import MiLanguage.Diagnostic.Fault
import MiLanguage.Diagnostic.Log
import MiLanguage.Environment
import MiLanguage.Expression.Reading
import MiLanguage.Expression.Typing
import MiLanguage.Files.Tree
import MiLanguage.Host.Binding
import MiLanguage.Host.Class
import MiLanguage.Host.Standard
import MiLanguage.Library
import MiLanguage.Main
import MiLanguage.Modifier
import MiLanguage.ModuleTree
import MiLanguage.Node.Basic
import MiLanguage.Node.Rendering
import MiLanguage.Operator
import MiLanguage.Overload
import MiLanguage.Proofs.Analysis.Clean
import MiLanguage.Proofs.Analysis.Pass
import MiLanguage.Proofs.Analysis.Rejected
import MiLanguage.Proofs.Analysis.Shifts
import MiLanguage.Proofs.Analysis.Turns
import MiLanguage.Proofs.Assignability
import MiLanguage.Proofs.Checked
import MiLanguage.Proofs.Control.Invariant
import MiLanguage.Proofs.Control.Run
import MiLanguage.Proofs.Control.Semantics
import MiLanguage.Proofs.Definitions
import MiLanguage.Proofs.Diagnostic.Limit
import MiLanguage.Proofs.Expression.Literals
import MiLanguage.Proofs.Expression.ReadBack
import MiLanguage.Proofs.Expression.RoundTrip
import MiLanguage.Proofs.Expression.Soundness
import MiLanguage.Proofs.Expression.Surface
import MiLanguage.Proofs.Filling
import MiLanguage.Proofs.FunctionTable
import MiLanguage.Proofs.Host.Binding
import MiLanguage.Proofs.Host.Colors
import MiLanguage.Proofs.Isolation.Programs
import MiLanguage.Proofs.Lexing.Grammar
import MiLanguage.Proofs.Lexing.Layout
import MiLanguage.Proofs.Lexing.Longest
import MiLanguage.Proofs.Lexing.Lossless
import MiLanguage.Proofs.Lexing.Positions
import MiLanguage.Proofs.Lexing.Scan
import MiLanguage.Proofs.Likeness.Ahead
import MiLanguage.Proofs.Likeness.Basic
import MiLanguage.Proofs.Likeness.Declaration
import MiLanguage.Proofs.Likeness.Run
import MiLanguage.Proofs.ModulePaths
import MiLanguage.Proofs.Naming.Actions
import MiLanguage.Proofs.Naming.Building
import MiLanguage.Proofs.Naming.Calls
import MiLanguage.Proofs.Naming.Declarations
import MiLanguage.Proofs.Naming.Declared
import MiLanguage.Proofs.Naming.Declaring
import MiLanguage.Proofs.Naming.Environment
import MiLanguage.Proofs.Naming.Growing
import MiLanguage.Proofs.Naming.Hidden
import MiLanguage.Proofs.Naming.Lexical
import MiLanguage.Proofs.Naming.Meaning
import MiLanguage.Proofs.Naming.Paths
import MiLanguage.Proofs.Naming.Qualified
import MiLanguage.Proofs.Naming.Recall
import MiLanguage.Proofs.Naming.Run
import MiLanguage.Proofs.Naming.Scopes
import MiLanguage.Proofs.Naming.Sight
import MiLanguage.Proofs.Naming.Statement
import MiLanguage.Proofs.Naming.Tree
import MiLanguage.Proofs.Nesting.Run
import MiLanguage.Proofs.Nesting.Shape
import MiLanguage.Proofs.Nesting.Step
import MiLanguage.Proofs.Node
import MiLanguage.Proofs.Ordering.Programs
import MiLanguage.Proofs.Outline.Accounted
import MiLanguage.Proofs.Outline.Basic
import MiLanguage.Proofs.Outline.Blocks
import MiLanguage.Proofs.Outline.Building
import MiLanguage.Proofs.Outline.Declarations
import MiLanguage.Proofs.Outline.Entries
import MiLanguage.Proofs.Outline.Keeping
import MiLanguage.Proofs.Outline.Library
import MiLanguage.Proofs.Outline.Run
import MiLanguage.Proofs.Overload
import MiLanguage.Proofs.Passes.Abreast
import MiLanguage.Proofs.Passes.Again
import MiLanguage.Proofs.Passes.Agreement
import MiLanguage.Proofs.Passes.Body
import MiLanguage.Proofs.Passes.Bounds
import MiLanguage.Proofs.Passes.Declaring
import MiLanguage.Proofs.Passes.InStep
import MiLanguage.Proofs.Passes.Lockstep
import MiLanguage.Proofs.Passes.Mirror
import MiLanguage.Proofs.Passes.Natives
import MiLanguage.Proofs.Passes.Signature
import MiLanguage.Proofs.Passes.Sketch
import MiLanguage.Proofs.Places.Run
import MiLanguage.Proofs.Reach.Alarms
import MiLanguage.Proofs.Reach.Exact
import MiLanguage.Proofs.Reach.Hosts
import MiLanguage.Proofs.Reach.Warnings
import MiLanguage.Proofs.Relocation.Reformatting
import MiLanguage.Proofs.Scope
import MiLanguage.Proofs.Settings.Nearest
import MiLanguage.Proofs.Statement.Accepts
import MiLanguage.Proofs.Statement.Blame
import MiLanguage.Proofs.Statement.Header
import MiLanguage.Proofs.Statement.InPlace
import MiLanguage.Proofs.Statement.Names
import MiLanguage.Proofs.Statement.Parts
import MiLanguage.Proofs.Statement.RangeLoop
import MiLanguage.Proofs.Statement.Storing
import MiLanguage.Proofs.Symbols.Apart
import MiLanguage.Proofs.Symbols.Homes
import MiLanguage.Proofs.Symbols.Run
import MiLanguage.Proofs.Symbols.TypeHome
import MiLanguage.Proofs.Symbols.WellFormed
import MiLanguage.Proofs.Tokens
import MiLanguage.Proofs.Typing.Run
import MiLanguage.Proofs.Typing.Shape
import MiLanguage.Proofs.Typing.Statement
import MiLanguage.Proofs.Typing.Ternary
import MiLanguage.Proofs.Typing.Void
import MiLanguage.Proofs.Typing.WellTyped
import MiLanguage.Proofs.Uses.Clauses
import MiLanguage.Proofs.Uses.Exchange
import MiLanguage.Proofs.Uses.Order
import MiLanguage.Proofs.Visibility.Expression
import MiLanguage.Proofs.Visibility.Filing
import MiLanguage.Proofs.Visibility.Run
import MiLanguage.Proofs.Visibility.Statement
import MiLanguage.Proofs.Visibility.Visible
import MiLanguage.Proofs.Visibility.Writing
import MiLanguage.Proofs.Writes.Run
import MiLanguage.Resolution
import MiLanguage.Scope
import MiLanguage.Settings.Basic
import MiLanguage.Settings.Discovery
import MiLanguage.Settings.Toml
import MiLanguage.Statement.Basic
import MiLanguage.Statement.Control
import MiLanguage.Statement.Declaration
import MiLanguage.Statement.Dispatch
import MiLanguage.Statement.Header
import MiLanguage.Statement.Variable
import MiLanguage.SymbolTable
import MiLanguage.Text.Digits
import MiLanguage.Text.Dotted
import MiLanguage.Text.Json
import MiLanguage.Text.Position
import MiLanguage.Token.Basic
import MiLanguage.Token.Lexeme
import MiLanguage.Token.Stream
