import ClassLang.Build.Failure
import ClassLang.Build.Stages
import ClassLang.Classes.IndexedTable
import ClassLang.Classes.SemanticError
import ClassLang.Classes.Table
import ClassLang.Grammar.Cursor
import ClassLang.Grammar.Parser
import ClassLang.Image.Basic
import ClassLang.Image.Constants
import ClassLang.Image.Instr
import ClassLang.Image.Json
import ClassLang.Image.Listing
import ClassLang.Image.Validate
import ClassLang.Json.Literal
import ClassLang.Json.Numeral
import ClassLang.Json.Text
import ClassLang.Json.Value
import ClassLang.Library.Builtin
import ClassLang.Library.Lineage
import ClassLang.Library.MemberKey
import ClassLang.Library.Native
import ClassLang.Library.Ty
import ClassLang.Lowering.BuildError
import ClassLang.Lowering.ChunkBuilder
import ClassLang.Lowering.Expression
import ClassLang.Lowering.Pools
import ClassLang.Lowering.Program
import ClassLang.Lowering.Slots
import ClassLang.Lowering.Statement
import ClassLang.Machine.Console
import ClassLang.Machine.Fault
import ClassLang.Machine.Frame
import ClassLang.Machine.Heap
import ClassLang.Machine.Native
import ClassLang.Machine.Run
import ClassLang.Machine.Step
import ClassLang.Machine.Value
import ClassLang.Main
import ClassLang.Number.Binary
import ClassLang.Number.Decimal
import ClassLang.Number.Remainder
import ClassLang.Number.Shortest
import ClassLang.Number.Text
import ClassLang.Proofs.Access
import ClassLang.Proofs.Agreement
import ClassLang.Proofs.Allocation
import ClassLang.Proofs.Annotations
import ClassLang.Proofs.Ascent
import ClassLang.Proofs.Assembled
import ClassLang.Proofs.BaseBinding
import ClassLang.Proofs.Blame
import ClassLang.Proofs.Bounds
import ClassLang.Proofs.Breaks
import ClassLang.Proofs.BuildFrames
import ClassLang.Proofs.BuildOrder
import ClassLang.Proofs.CallDiscipline
import ClassLang.Proofs.Callees
import ClassLang.Proofs.Calls
import ClassLang.Proofs.Chain
import ClassLang.Proofs.ClassOrder
import ClassLang.Proofs.Compilation
import ClassLang.Proofs.Construction
import ClassLang.Proofs.ControlFlow
import ClassLang.Proofs.Correspondence
import ClassLang.Proofs.Cutting
import ClassLang.Proofs.Cycles
import ClassLang.Proofs.DedicatedOperators
import ClassLang.Proofs.Derivation
import ClassLang.Proofs.Emitted
import ClassLang.Proofs.Erasure
import ClassLang.Proofs.Evaluation
import ClassLang.Proofs.Execution
import ClassLang.Proofs.Expressions
import ClassLang.Proofs.FieldLayout
import ClassLang.Proofs.Growth
import ClassLang.Proofs.HeapTyping
import ClassLang.Proofs.Hierarchy
import ClassLang.Proofs.IndexedTable
import ClassLang.Proofs.Initialization
import ClassLang.Proofs.InputLines
import ClassLang.Proofs.Interning
import ClassLang.Proofs.Isolation
import ClassLang.Proofs.JsonText
import ClassLang.Proofs.Landing
import ClassLang.Proofs.Layout
import ClassLang.Proofs.Lookups
import ClassLang.Proofs.Lowerable
import ClassLang.Proofs.Members
import ClassLang.Proofs.Mirror
import ClassLang.Proofs.Nesting
import ClassLang.Proofs.Notes
import ClassLang.Proofs.NullSafety
import ClassLang.Proofs.Occurrences
import ClassLang.Proofs.Operands
import ClassLang.Proofs.Outlines
import ClassLang.Proofs.Overriding
import ClassLang.Proofs.Patterns
import ClassLang.Proofs.Placement
import ClassLang.Proofs.Places
import ClassLang.Proofs.Pointing
import ClassLang.Proofs.Productions
import ClassLang.Proofs.Promises
import ClassLang.Proofs.Reading
import ClassLang.Proofs.ReadingStatements
import ClassLang.Proofs.Receivers
import ClassLang.Proofs.Recovery
import ClassLang.Proofs.Registration
import ClassLang.Proofs.Relayout
import ClassLang.Proofs.RenumberedCheck
import ClassLang.Proofs.RenumberedEvaluation
import ClassLang.Proofs.Renumbering
import ClassLang.Proofs.ReorderedCheck
import ClassLang.Proofs.Reordering
import ClassLang.Proofs.Rescanning
import ClassLang.Proofs.Resolution
import ClassLang.Proofs.ReturnFlow
import ClassLang.Proofs.Roots
import ClassLang.Proofs.RoundTrip
import ClassLang.Proofs.Safety
import ClassLang.Proofs.Scanning
import ClassLang.Proofs.Scoping
import ClassLang.Proofs.Significant
import ClassLang.Proofs.Simulation
import ClassLang.Proofs.Skipping
import ClassLang.Proofs.Spelling
import ClassLang.Proofs.StackDepth
import ClassLang.Proofs.StackShape
import ClassLang.Proofs.Stages
import ClassLang.Proofs.Statements
import ClassLang.Proofs.Stretches
import ClassLang.Proofs.StringLiterals
import ClassLang.Proofs.Success
import ClassLang.Proofs.TableEdits
import ClassLang.Proofs.Threading
import ClassLang.Proofs.Typed
import ClassLang.Proofs.Validation
import ClassLang.Proofs.WellTyped
import ClassLang.Report.Diagnostic
import ClassLang.Report.Json
import ClassLang.Source.Layout
import ClassLang.Source.Lexeme
import ClassLang.Source.Span
import ClassLang.Source.Token
import ClassLang.Text.GraphemeExtend
import ClassLang.Text.Quoted
import ClassLang.Text.Unprintable
import ClassLang.Tree.Decl
import ClassLang.Tree.Expr
import ClassLang.Tree.Operator
import ClassLang.Tree.Stmt
import ClassLang.Typing.Environment
import ClassLang.Typing.Expression
import ClassLang.Typing.Hierarchy
import ClassLang.Typing.Member
import ClassLang.Typing.Program
import ClassLang.Typing.Scopes
import ClassLang.Typing.Statement
