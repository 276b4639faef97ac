import EventScript.Callable
import EventScript.CommandLine
import EventScript.CommandLine.Arguments
import EventScript.Config
import EventScript.Config.File
import EventScript.Corpus
import EventScript.Datum
import EventScript.Datum.Decoding
import EventScript.Datum.Encoding
import EventScript.Datum.Wire
import EventScript.Decimal.Reading
import EventScript.Decimal.Shortest
import EventScript.Diagnostic
import EventScript.Document
import EventScript.FileSystem
import EventScript.FileTree
import EventScript.Heap
import EventScript.Json
import EventScript.Json.Reader
import EventScript.Machine
import EventScript.Machine.Error
import EventScript.Machine.Native
import EventScript.Machine.State
import EventScript.Main
import EventScript.Manager
import EventScript.Number
import EventScript.Operation
import EventScript.Operation.Standard
import EventScript.Program
import EventScript.Program.Assembly
import EventScript.Program.Lowering
import EventScript.Resource
import EventScript.RichText
import EventScript.RichText.Markup
import EventScript.Scope
import EventScript.SortedMap
import EventScript.Source
import EventScript.Source.Directory
import EventScript.Source.Memory
import EventScript.Span
import EventScript.StaticType
import EventScript.Syntax
import EventScript.Syntax.Binding
import EventScript.Syntax.Parser
import EventScript.Table
import EventScript.Text.GraphemeExtend
import EventScript.Text.Hex
import EventScript.Text.Quoted
import EventScript.Text.Unprintable
import EventScript.Token
import EventScript.Token.Lexer
import EventScript.Value
import EventScript.Value.Kind
import EventScript.Value.Random
import EventScript.Proofs.Lookup
import EventScript.Proofs.Lowering
import EventScript.Proofs.Lowering.Growth
import EventScript.Proofs.Lowering.Layout
import EventScript.Proofs.SourceTree
import EventScript.Proofs.Submission
import EventScript.Proofs.Machine.Effect
import EventScript.Proofs.Machine.Handles
import EventScript.Proofs.Machine.Heights
import EventScript.Proofs.Machine.Unlimited
import EventScript.Proofs.Shape
import EventScript.Proofs.Registry
import EventScript.Proofs.Shape.Lowered
import EventScript.Proofs.Shape.Routine
import EventScript.Proofs.Shape.Run
import EventScript.Proofs.Shape.Compiled
import EventScript.Proofs.NeverMalformed
import EventScript.Proofs.TypeSoundness
import EventScript.Proofs.StackDiscipline
import EventScript.Proofs.Evaluation
import EventScript.Proofs.Machine.Walk
import EventScript.Proofs.Simulation.Follows
import EventScript.Proofs.Lowering.Typing
import EventScript.Proofs.Simulation.Slots
import EventScript.Proofs.Simulation.Loops
import EventScript.Proofs.Simulation
import EventScript.Proofs.Simulation.Schemas
import EventScript.Proofs.CompilerCorrectness
import EventScript.Proofs.Outcome
import EventScript.Proofs.Lists
import EventScript.Proofs.SortedMap
import EventScript.Proofs.Text.Utf8
import EventScript.Proofs.RichText.Canonical
import EventScript.Proofs.RichText.Size
import EventScript.Proofs.Datum.Tree
import EventScript.Proofs.Datum.Alike
import EventScript.Proofs.Codec.Delimited
import EventScript.Proofs.Codec.Encoding
import EventScript.Proofs.Codec.Rereading
import EventScript.Proofs.Codec.Faithful
import EventScript.Proofs.Codec.Decoded
import EventScript.Proofs.Codec.Documents
import EventScript.Proofs.Heap.Changing
import EventScript.Proofs.Heap.Containment
import EventScript.Proofs.Heap.Reaching
import EventScript.Proofs.Heap.Recursion
import EventScript.Proofs.Heap.Sameness
import EventScript.Proofs.Heap.Storing
import EventScript.Proofs.RoundTrip
import EventScript.Proofs.SelfDelimiting
import EventScript.Proofs.SaveCycle
import EventScript.Proofs.EqualDocuments
import EventScript.Proofs.TreeShape
import EventScript.Proofs.Corpus
import EventScript.Proofs.Reloading
import EventScript.Proofs.Complaints
import EventScript.Proofs.Complaints.Lowering
import EventScript.Proofs.Complaints.Reading
import EventScript.Proofs.CorpusNames
import EventScript.Proofs.Limits
import EventScript.Proofs.Token.Scanning
import EventScript.Proofs.Token.Places
import EventScript.Proofs.Diagnostics
import EventScript.Proofs.Agreement
import EventScript.Proofs.UnrelatedOperations
import EventScript.Proofs.Machine.Operating
import EventScript.Proofs.Positions
import EventScript.Proofs.Positions.Lockstep
import EventScript.Proofs.Positions.Pools
import EventScript.Proofs.Positions.Following
import EventScript.Proofs.Positions.Rearranged
import EventScript.Proofs.FileOrder
import EventScript.Proofs.Grammar
import EventScript.Proofs.Grammar.Unambiguous
import EventScript.Proofs.Grammar.Consuming
import EventScript.Proofs.Grammar.Sound
import EventScript.Proofs.Grammar.Complete
import EventScript.Proofs.ParserCorrectness
import EventScript.Proofs.Binding.Repeated
import EventScript.Proofs.BindingHistory
import EventScript.Proofs.Binding.Filling
import EventScript.Proofs.CallTargets
import EventScript.Proofs.ContainerStores
import EventScript.Proofs.Lowering.Rebinding
import EventScript.Proofs.TypeAgreement
import EventScript.Proofs.AssignedNames
import EventScript.Proofs.Lowering.Derived
import EventScript.Proofs.Lowering.Flow
import EventScript.Proofs.Machine.Calls
import EventScript.Proofs.Machine.Unassigned
import EventScript.Proofs.UnassignedVariables
import EventScript.Proofs.Machine.Actions
import EventScript.Proofs.Heap.Kinds
import EventScript.Proofs.Heap.Keys
import EventScript.Proofs.DictLookups
import EventScript.Proofs.Number.Whole
import EventScript.Proofs.Machine.Passing
import EventScript.Proofs.Machine.Traversing
import EventScript.Proofs.Lowering.Enclosed
import EventScript.Proofs.Lowering.Parts
import EventScript.Proofs.FreeRuns
import EventScript.Proofs.Repetition
import EventScript.Proofs.Heap.Growing
import EventScript.Proofs.Machine.Growing
import EventScript.Proofs.Iteration
import EventScript.Proofs.Varints
import EventScript.Proofs.ValueEquality
import EventScript.Proofs.Datum.Totals
import EventScript.Proofs.Heap.Preorder
import EventScript.Proofs.Codec.Faults
import EventScript.Proofs.Codec.Walking
import EventScript.Proofs.Encodable
import EventScript.Proofs.Codec.Recording
import EventScript.Proofs.Codec.Careful
import EventScript.Proofs.Codec.Bounded
import EventScript.Proofs.ReadingBounds
import EventScript.Proofs.CanonicalText
import EventScript.Proofs.MarkupReading
import EventScript.Proofs.MarkupRoundTrip
import EventScript.Proofs.Heap.Gamut
import EventScript.Proofs.Machine.Gamut
import EventScript.Proofs.Lowering.Literals
import EventScript.Proofs.ColorGamut
import EventScript.Proofs.Token.Layout
import EventScript.Proofs.Token.Spelling
import EventScript.Proofs.Tiling
import EventScript.Proofs.WrittenTokens
import EventScript.Proofs.Grammar.Lookahead
import EventScript.Proofs.Grammar.Openings
import EventScript.Proofs.Grammar.Halting
import EventScript.Proofs.ParserTermination
import EventScript.Proofs.ParserComplaints
import EventScript.Proofs.LinesAndColumns
import EventScript.Proofs.SlotAllocation
import EventScript.Proofs.Positions.Requests
import EventScript.Proofs.ConstantPool
import EventScript.Proofs.Grammar.Places
import EventScript.Proofs.SpanNesting
