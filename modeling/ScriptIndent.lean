import ScriptIndent.Check.Analysis
import ScriptIndent.Check.Result
import ScriptIndent.Check.Style
import ScriptIndent.Check.Violation
import ScriptIndent.Command.Files
import ScriptIndent.Command.Grammar
import ScriptIndent.Command.Invocation
import ScriptIndent.Command.Run
import ScriptIndent.Command.Usage
import ScriptIndent.Config.Document
import ScriptIndent.Config.Preferences
import ScriptIndent.Config.Session
import ScriptIndent.Config.Setting
import ScriptIndent.Config.Value
import ScriptIndent.Decimal.Shortest
import ScriptIndent.Dictionary
import ScriptIndent.Environment
import ScriptIndent.Host.Script
import ScriptIndent.Language.Basic
import ScriptIndent.Language.Registry
import ScriptIndent.Main
import ScriptIndent.Notice
import ScriptIndent.Offset.Registry
import ScriptIndent.Offset.Resolver
import ScriptIndent.Output.Encoding
import ScriptIndent.Output.Symbols
import ScriptIndent.Path.Basic
import ScriptIndent.Path.Glob
import ScriptIndent.Problem
import ScriptIndent.Proofs.Account.Access
import ScriptIndent.Proofs.Account.Basic
import ScriptIndent.Proofs.Account.Clauses
import ScriptIndent.Proofs.Account.Control
import ScriptIndent.Proofs.Account.Functions
import ScriptIndent.Proofs.Account.Kept
import ScriptIndent.Proofs.Account.Lists
import ScriptIndent.Proofs.Account.Modules
import ScriptIndent.Proofs.Account.Nesting
import ScriptIndent.Proofs.Account.Operators
import ScriptIndent.Proofs.Account.Production
import ScriptIndent.Proofs.Account.Tree
import ScriptIndent.Proofs.Command.Check
import ScriptIndent.Proofs.Command.Damage
import ScriptIndent.Proofs.Config.Change
import ScriptIndent.Proofs.Config.Failure
import ScriptIndent.Proofs.Config.Faults
import ScriptIndent.Proofs.Config.Layers
import ScriptIndent.Proofs.Config.RoundTrip
import ScriptIndent.Proofs.Embedding.Access
import ScriptIndent.Proofs.Embedding.Alone
import ScriptIndent.Proofs.Embedding.Analysis
import ScriptIndent.Proofs.Embedding.Basic
import ScriptIndent.Proofs.Embedding.Control
import ScriptIndent.Proofs.Embedding.Draft
import ScriptIndent.Proofs.Embedding.Excerpt
import ScriptIndent.Proofs.Embedding.Functions
import ScriptIndent.Proofs.Embedding.InFunction
import ScriptIndent.Proofs.Embedding.Levels
import ScriptIndent.Proofs.Embedding.Lines
import ScriptIndent.Proofs.Embedding.Modules
import ScriptIndent.Proofs.Embedding.Operators
import ScriptIndent.Proofs.Embedding.Query
import ScriptIndent.Proofs.Embedding.Records
import ScriptIndent.Proofs.Embedding.Settle
import ScriptIndent.Proofs.Embedding.Shift
import ScriptIndent.Proofs.Embedding.Statements
import ScriptIndent.Proofs.Embedding.Surround
import ScriptIndent.Proofs.Embedding.Visit
import ScriptIndent.Proofs.Host.Document
import ScriptIndent.Proofs.Host.Mask
import ScriptIndent.Proofs.Host.Scripts
import ScriptIndent.Proofs.Language.Exclusions
import ScriptIndent.Proofs.Language.History
import ScriptIndent.Proofs.Language.Reading
import ScriptIndent.Proofs.Layout.Groups
import ScriptIndent.Proofs.Layout.Lines
import ScriptIndent.Proofs.Layout.Margins
import ScriptIndent.Proofs.Layout.Reindent
import ScriptIndent.Proofs.Layout.Reported
import ScriptIndent.Proofs.Layout.Restyle
import ScriptIndent.Proofs.Offset.Acyclic
import ScriptIndent.Proofs.Offset.Affine
import ScriptIndent.Proofs.Offset.Bodies
import ScriptIndent.Proofs.Offset.Calls
import ScriptIndent.Proofs.Offset.Chain
import ScriptIndent.Proofs.Offset.Delimited
import ScriptIndent.Proofs.Offset.Hanging
import ScriptIndent.Proofs.Offset.Imports
import ScriptIndent.Proofs.Offset.Judged
import ScriptIndent.Proofs.Offset.Lasso
import ScriptIndent.Proofs.Offset.Levels
import ScriptIndent.Proofs.Offset.LineByLine
import ScriptIndent.Proofs.Offset.LineLevel
import ScriptIndent.Proofs.Offset.Links
import ScriptIndent.Proofs.Offset.Parens
import ScriptIndent.Proofs.Offset.Semicolons
import ScriptIndent.Proofs.Offset.Ternaries
import ScriptIndent.Proofs.Offset.Wrapping
import ScriptIndent.Proofs.Output.Printing
import ScriptIndent.Proofs.Printed.Accepted
import ScriptIndent.Proofs.Printed.Levels
import ScriptIndent.Proofs.Printed.Lines
import ScriptIndent.Proofs.Printed.Program
import ScriptIndent.Proofs.Printed.Sketch
import ScriptIndent.Proofs.Printed.Sound
import ScriptIndent.Proofs.Remark.Embedding
import ScriptIndent.Proofs.Remark.Levels
import ScriptIndent.Proofs.Remark.Lines
import ScriptIndent.Proofs.Remark.Text
import ScriptIndent.Proofs.Remark.Tree
import ScriptIndent.Proofs.Report.Totals
import ScriptIndent.Proofs.Rule.Access
import ScriptIndent.Proofs.Rule.Affine
import ScriptIndent.Proofs.Rule.Bodies
import ScriptIndent.Proofs.Rule.Chains
import ScriptIndent.Proofs.Rule.Control
import ScriptIndent.Proofs.Rule.Damage
import ScriptIndent.Proofs.Rule.Delimited
import ScriptIndent.Proofs.Rule.Depth
import ScriptIndent.Proofs.Rule.Elements
import ScriptIndent.Proofs.Rule.Frame
import ScriptIndent.Proofs.Rule.Functions
import ScriptIndent.Proofs.Rule.Imports
import ScriptIndent.Proofs.Rule.Judged
import ScriptIndent.Proofs.Rule.Lasting
import ScriptIndent.Proofs.Rule.Links
import ScriptIndent.Proofs.Rule.Lists
import ScriptIndent.Proofs.Rule.Modules
import ScriptIndent.Proofs.Rule.Operators
import ScriptIndent.Proofs.Rule.Outcome
import ScriptIndent.Proofs.Rule.Owners
import ScriptIndent.Proofs.Rule.Parens
import ScriptIndent.Proofs.Rule.Parts
import ScriptIndent.Proofs.Rule.Reach
import ScriptIndent.Proofs.Rule.Reexports
import ScriptIndent.Proofs.Rule.Semicolons
import ScriptIndent.Proofs.Rule.Standing
import ScriptIndent.Proofs.Rule.Templates
import ScriptIndent.Proofs.Rule.Ternaries
import ScriptIndent.Proofs.Rule.Unwrap
import ScriptIndent.Proofs.Rule.Visit
import ScriptIndent.Proofs.Rule.Wrapping
import ScriptIndent.Proofs.Stream.Leaders
import ScriptIndent.Proofs.Stream.Lossless
import ScriptIndent.Proofs.Stream.Order
import ScriptIndent.Proofs.Stream.Parens
import ScriptIndent.Proofs.Stream.Place
import ScriptIndent.Proofs.Stream.Query
import ScriptIndent.Proofs.Stream.Scan
import ScriptIndent.Proofs.Stream.Span
import ScriptIndent.Proofs.Stream.Templates
import ScriptIndent.Proofs.Text.Numeral
import ScriptIndent.Proofs.Tree.Addresses
import ScriptIndent.Proofs.Tree.Copy
import ScriptIndent.Proofs.Tree.Errors
import ScriptIndent.Proofs.Tree.Grammar
import ScriptIndent.Proofs.Tree.Mirror
import ScriptIndent.Proofs.Tree.Nested
import ScriptIndent.Proofs.Tree.Sound
import ScriptIndent.Proofs.Tree.Visited
import ScriptIndent.Proofs.Workspace.Written
import ScriptIndent.Report.Format
import ScriptIndent.Report.Json
import ScriptIndent.Report.Summary
import ScriptIndent.Report.Text
import ScriptIndent.Rule.Access
import ScriptIndent.Rule.Construct
import ScriptIndent.Rule.Control
import ScriptIndent.Rule.Draft
import ScriptIndent.Rule.Functions
import ScriptIndent.Rule.Lists
import ScriptIndent.Rule.Modules
import ScriptIndent.Rule.Operators
import ScriptIndent.Rule.Visit
import ScriptIndent.Search
import ScriptIndent.Source.Basic
import ScriptIndent.Source.Buffer
import ScriptIndent.Source.Query
import ScriptIndent.Source.Reading
import ScriptIndent.Source.Stream
import ScriptIndent.Syntax.Node
import ScriptIndent.Text.Alphanumeric
import ScriptIndent.Text.Blank
import ScriptIndent.Text.Digit
import ScriptIndent.Text.Integer
import ScriptIndent.Text.Lowercase
import ScriptIndent.Text.Printable
import ScriptIndent.Text.Quoted
import ScriptIndent.Text.Utf8
import ScriptIndent.Token.Basic
import ScriptIndent.Token.Kind
import ScriptIndent.Workspace.Basic
import ScriptIndent.Workspace.Change
