import CInterface.Aggregate
import CInterface.CType
import CInterface.CType.Error
import CInterface.CType.Json
import CInterface.CType.Render
import CInterface.CType.Resolve
import CInterface.Conditional
import CInterface.Decimal.Layout
import CInterface.Decimal.Nearest
import CInterface.Decimal.Shortest
import CInterface.Definition
import CInterface.Definition.Json
import CInterface.Directive
import CInterface.Expr
import CInterface.Expr.Parser
import CInterface.Grammar
import CInterface.Grammar.Bracket
import CInterface.Grammar.Declaration
import CInterface.Grammar.Declarator
import CInterface.Grammar.Enumeration
import CInterface.Grammar.Error
import CInterface.Grammar.Header
import CInterface.Grammar.Production
import CInterface.Grammar.Qualifier
import CInterface.Grammar.TypeName
import CInterface.Json
import CInterface.Json.Number
import CInterface.Json.Reader
import CInterface.Json.Shape
import CInterface.Literal
import CInterface.Macro
import CInterface.Macro.Call
import CInterface.Macro.Expansion
import CInterface.OrderedMap
import CInterface.Packing
import CInterface.Packing.Pragma
import CInterface.Preprocess
import CInterface.Proofs.CType.Derived
import CInterface.Proofs.CType.Flat
import CInterface.Proofs.CType.Flattening
import CInterface.Proofs.CType.Levels
import CInterface.Proofs.CType.Qualifiers
import CInterface.Proofs.CType.Resolution
import CInterface.Proofs.CType.RoundTrip
import CInterface.Proofs.CType.Splicing
import CInterface.Proofs.CType.Wording
import CInterface.Proofs.CType.WrittenQualifiers
import CInterface.Proofs.Conditional.Formulas
import CInterface.Proofs.Conditional.GroupBranches
import CInterface.Proofs.Conditional.LevelFlags
import CInterface.Proofs.Conditional.Nesting
import CInterface.Proofs.Definition.Equality
import CInterface.Proofs.Definition.Wording
import CInterface.Proofs.Expr.Derivation
import CInterface.Proofs.Expr.Evaluation
import CInterface.Proofs.Expr.Grouping
import CInterface.Proofs.Expr.Precedence
import CInterface.Proofs.Grammar.Accounting
import CInterface.Proofs.Grammar.Aggregates
import CInterface.Proofs.Grammar.Agreement
import CInterface.Proofs.Grammar.CheckedDeclarations
import CInterface.Proofs.Grammar.Closure
import CInterface.Proofs.Grammar.Composition
import CInterface.Proofs.Grammar.DeclarationScript
import CInterface.Proofs.Grammar.DeclaratorTrees
import CInterface.Proofs.Grammar.Declarators
import CInterface.Proofs.Grammar.EnumMembers
import CInterface.Proofs.Grammar.Findings
import CInterface.Proofs.Grammar.Forward
import CInterface.Proofs.Grammar.FreshNames
import CInterface.Proofs.Grammar.Initializers
import CInterface.Proofs.Grammar.Inventions
import CInterface.Proofs.Grammar.Keeping
import CInterface.Proofs.Grammar.Layers
import CInterface.Proofs.Grammar.Lockstep
import CInterface.Proofs.Grammar.Lookahead
import CInterface.Proofs.Grammar.Members
import CInterface.Proofs.Grammar.ModifierArguments
import CInterface.Proofs.Grammar.MutualAgreement
import CInterface.Proofs.Grammar.NamesKept
import CInterface.Proofs.Grammar.Pairing
import CInterface.Proofs.Grammar.Postcondition
import CInterface.Proofs.Grammar.Progress
import CInterface.Proofs.Grammar.Recording
import CInterface.Proofs.Grammar.Script
import CInterface.Proofs.Grammar.Settling
import CInterface.Proofs.Grammar.TagsKept
import CInterface.Proofs.Grammar.Transaction
import CInterface.Proofs.Grammar.Turns
import CInterface.Proofs.Grammar.Variables
import CInterface.Proofs.Json.Contents
import CInterface.Proofs.Json.Flat
import CInterface.Proofs.Json.Literals
import CInterface.Proofs.Json.Reading
import CInterface.Proofs.Json.Registries
import CInterface.Proofs.Json.Shapes
import CInterface.Proofs.Json.Sources
import CInterface.Proofs.Literal.Decimal
import CInterface.Proofs.Literal.Escapes
import CInterface.Proofs.Literal.Integers
import CInterface.Proofs.Macro.Aliases
import CInterface.Proofs.Macro.ArgumentLists
import CInterface.Proofs.Macro.Bodies
import CInterface.Proofs.Macro.Boundaries
import CInterface.Proofs.Macro.Brackets
import CInterface.Proofs.Macro.Calls
import CInterface.Proofs.Macro.Derivation
import CInterface.Proofs.Macro.Gaps
import CInterface.Proofs.Macro.OneLine
import CInterface.Proofs.Macro.Rescanning
import CInterface.Proofs.Macro.Steps
import CInterface.Proofs.Macro.Substitution
import CInterface.Proofs.Macro.TrailingBlanks
import CInterface.Proofs.Macro.Unfolding
import CInterface.Proofs.Packing.Log
import CInterface.Proofs.Packing.Matching
import CInterface.Proofs.Preprocess.BlockComments
import CInterface.Proofs.Preprocess.DefinedOperands
import CInterface.Proofs.Preprocess.DefiningLines
import CInterface.Proofs.Preprocess.LineNumbers
import CInterface.Proofs.Preprocess.ListedMacros
import CInterface.Proofs.Preprocess.MacroDefinitions
import CInterface.Proofs.Preprocess.SameMacros
import CInterface.Proofs.Preprocess.TrailingBlanks
import CInterface.Proofs.Preprocess.Undefining
import CInterface.Proofs.Registry.Listings
import CInterface.Proofs.Registry.MacroKinds
import CInterface.Proofs.Registry.Macros
import CInterface.Proofs.Registry.Provenance
import CInterface.Proofs.Registry.Tags
import CInterface.Proofs.Registry.Union
import CInterface.Proofs.Registry.Views
import CInterface.Proofs.Session.Cache
import CInterface.Proofs.Session.Determinism
import CInterface.Proofs.Session.Failure
import CInterface.Proofs.Session.TextSearch
import CInterface.Proofs.Session.Views
import CInterface.Proofs.Text.Comments
import CInterface.Proofs.Text.ContinuedLines
import CInterface.Proofs.Text.JoinedLines
import CInterface.Proofs.Text.LineEndings
import CInterface.Proofs.Text.LineTables
import CInterface.Proofs.Text.Lines
import CInterface.Proofs.Text.Offsets
import CInterface.Proofs.Text.Search
import CInterface.Proofs.Text.Tiling
import CInterface.Proofs.Text.StrippedComments
import CInterface.Proofs.Token.Covering
import CInterface.Proofs.Token.Fusing
import CInterface.Proofs.Token.Identifiers
import CInterface.Proofs.Token.Joining
import CInterface.Proofs.Token.Nested
import CInterface.Proofs.Token.Places
import CInterface.Proofs.Token.Remainders
import CInterface.Proofs.Token.Reprinting
import CInterface.Proofs.Token.Spelling
import CInterface.Proofs.Token.TrailingBlanks
import CInterface.Proofs.Value.Writing
import CInterface.Proofs.Word.Bytes
import CInterface.Proofs.Word.Ranges
import CInterface.Regex
import CInterface.Regex.Parser
import CInterface.Regex.Program
import CInterface.Regex.Replace
import CInterface.Regex.Search
import CInterface.Regex.Token
import CInterface.Registry
import CInterface.Registry.Json
import CInterface.Registry.Listing
import CInterface.Session
import CInterface.Session.Cache
import CInterface.Session.Options
import CInterface.Session.Processing
import CInterface.Text.Case
import CInterface.Text.Class
import CInterface.Text.Letter
import CInterface.Text.LineTable
import CInterface.Text.Normal
import CInterface.Text.Split
import CInterface.Token
import CInterface.Token.Lexer
import CInterface.Value
import CInterface.Value.Json
import CInterface.Vocabulary
import CInterface.Word
