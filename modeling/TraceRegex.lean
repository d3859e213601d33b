import TraceRegex.Automaton.Algebra
import TraceRegex.Automaton.Basic
import TraceRegex.Automaton.Clean
import TraceRegex.Automaton.Deterministic
import TraceRegex.Automaton.Document
import TraceRegex.Automaton.Minimize
import TraceRegex.Automaton.Run
import TraceRegex.Collection.BitSet
import TraceRegex.Collection.BoundedStack
import TraceRegex.Collection.BucketMap
import TraceRegex.Fault
import TraceRegex.Formula.Basic
import TraceRegex.Collection.SortedSet
import TraceRegex.CommandLine.Commands
import TraceRegex.CommandLine.Console
import TraceRegex.CommandLine.Desk
import TraceRegex.CommandLine.Flags
import TraceRegex.CommandLine.Report
import TraceRegex.CommandLine.WordLists
import TraceRegex.Compile.Basic
import TraceRegex.Compile.Settings
import TraceRegex.Compile.SettingsFile
import TraceRegex.Context.Arena
import TraceRegex.Context.Basic
import TraceRegex.Context.NormalForm
import TraceRegex.Context.Simplify
import TraceRegex.Context.Solver
import TraceRegex.Expression.Basic
import TraceRegex.Expression.Grammar
import TraceRegex.Expression.Language
import TraceRegex.Expression.Lower
import TraceRegex.Expression.Parser
import TraceRegex.Expression.Syntax
import TraceRegex.Expression.SyntaxError
import TraceRegex.Expression.Token
import TraceRegex.Formula.Circuit
import TraceRegex.Formula.Document
import TraceRegex.Formula.NormalForm
import TraceRegex.Formula.Printer
import TraceRegex.Formula.Solver
import TraceRegex.Json.Basic
import TraceRegex.Json.Decode
import TraceRegex.Json.Reader
import TraceRegex.Json.SyntaxError
import TraceRegex.Letter.Basic
import TraceRegex.Letter.Text
import TraceRegex.Main
import TraceRegex.Proofs.Algebra
import TraceRegex.Proofs.BinaryFormat
import TraceRegex.Proofs.BinaryLayout
import TraceRegex.Proofs.Cleaning
import TraceRegex.Proofs.Compilation
import TraceRegex.Proofs.Complement
import TraceRegex.Proofs.Determinization
import TraceRegex.Proofs.Documents
import TraceRegex.Proofs.GuardCode
import TraceRegex.Proofs.JsonText
import TraceRegex.Proofs.Language
import TraceRegex.Proofs.Lowering
import TraceRegex.Proofs.Minimization
import TraceRegex.Proofs.PartitionRefinement
import TraceRegex.Proofs.Runs
import TraceRegex.Proofs.Search
import TraceRegex.Proofs.SearchCompilation
import TraceRegex.Proofs.SetMembership
import TraceRegex.Proofs.Simplification
import TraceRegex.Proofs.Steady
import TraceRegex.Proofs.Streaming
import TraceRegex.Proofs.SubsetConstruction
import TraceRegex.Proofs.Utf8
import TraceRegex.Random.Generator
import TraceRegex.Random.Sample
import TraceRegex.Snapshot.Basic
import TraceRegex.Snapshot.Binary
import TraceRegex.Snapshot.Bytecode
import TraceRegex.Snapshot.Document
import TraceRegex.Snapshot.Executor
import TraceRegex.Snapshot.Mismatch
import TraceRegex.Snapshot.Reach
import TraceRegex.Snapshot.Search
import TraceRegex.Table.Algebra
import TraceRegex.Table.Basic
import TraceRegex.Table.Clean
import TraceRegex.Table.Deterministic
import TraceRegex.Table.Document
import TraceRegex.Text.Lines
import TraceRegex.Text.Quoted
import TraceRegex.Text.Printable
import TraceRegex.Text.Utf8
import TraceRegex.Verdict
import TraceRegex.Words.File
import TraceRegex.Words.Generate
import TraceRegex.Yaml.Cursor
import TraceRegex.Yaml.Error
import TraceRegex.Yaml.Event
import TraceRegex.Yaml.Meaning
import TraceRegex.Yaml.Node
import TraceRegex.Yaml.Property
import TraceRegex.Yaml.Scalar
import TraceRegex.Yaml.Source
import TraceRegex.Yaml.Token
import TraceRegex.Proofs.Formats
import TraceRegex.Proofs.Allocation
import TraceRegex.Proofs.HandleArena
import TraceRegex.Proofs.HashConsing
import TraceRegex.Proofs.HeldGuards
import TraceRegex.Proofs.Derivations
import TraceRegex.Proofs.Parsing
import TraceRegex.Proofs.Printing
import TraceRegex.Proofs.Acceptance
import TraceRegex.Proofs.SnapshotDeterminism
import TraceRegex.Proofs.Narrowing
import TraceRegex.Proofs.DocumentSize
import TraceRegex.Proofs.SafeRuns
import TraceRegex.Proofs.UndeclaredAtoms
import TraceRegex.Proofs.AtomNumbering
import TraceRegex.Proofs.RegularOperations
import TraceRegex.Proofs.Totalization
import TraceRegex.Proofs.ExactVerdicts
import TraceRegex.Proofs.LeafSearch
import TraceRegex.Proofs.TableAlgebra
import TraceRegex.Proofs.TableDeterminization
import TraceRegex.Proofs.TableRuns
import TraceRegex.Proofs.NormalFormLaws
import TraceRegex.Proofs.Irredundance
import TraceRegex.Proofs.Decisions
import TraceRegex.Proofs.PrefixCode
import TraceRegex.Proofs.Evaluators
import TraceRegex.Proofs.Truncation
import TraceRegex.Proofs.CanonicalForm
import TraceRegex.Proofs.DocumentRoundTrip
import TraceRegex.Proofs.FormulaText
import TraceRegex.Proofs.DerivedForms
import TraceRegex.Proofs.TokenLayout
import TraceRegex.Proofs.RepetitionErrors
import TraceRegex.Proofs.SetTerms
import TraceRegex.Proofs.InsertHistory
import TraceRegex.Proofs.WordFiles
import TraceRegex.Proofs.WordGeneration
