import ObjectScript.Lib.Precedence
import ObjectScript.Lib.Links
import ObjectScript.Lib.Marking
import ObjectScript.Lib.Tally
import ObjectScript.Lib.Chain
import ObjectScript.Lib.Field
import ObjectScript.Lib.LittleEndian
import ObjectScript.Lib.ByteReader
import ObjectScript.Lib.Entries
import ObjectScript.Lib.Descent
import ObjectScript.Lib.Occurrences
import ObjectScript.Lib.SelfDelimiting
import ObjectScript.Lib.WrappedSum
import ObjectScript.Compiler.BinaryOperator
import ObjectScript.Compiler.Grouping
import ObjectScript.Compiler.Instruction
import ObjectScript.Compiler.Folding
import ObjectScript.Compiler.TryBlocks
import ObjectScript.Compiler.ByteStream
import ObjectScript.Compiler.Bytecode
import ObjectScript.Compiler.RoundTrip
import ObjectScript.Compiler.Loading
import ObjectScript.Compiler.TokenizerRuns
import ObjectScript.Compiler.ValuesWanted
import ObjectScript.Compiler.SwitchLinked
import ObjectScript.Core.Value
import ObjectScript.Core.Vector
import ObjectScript.Core.Double
import ObjectScript.Core.Qsort
import ObjectScript.Core.Table
import ObjectScript.Core.TableHolds
import ObjectScript.Core.TableUnlink
import ObjectScript.Core.TableSort
import ObjectScript.Core.TableRuns
import ObjectScript.Core.PrototypeChain
import ObjectScript.Core.StringRefs
import ObjectScript.Core.SplitHash
import ObjectScript.Core.QsortPointers
import ObjectScript.Core.TableSorted
import ObjectScript.Core.KeyHash
import ObjectScript.Core.NextIndex
import ObjectScript.Core.TableIterators
import ObjectScript.Core.SortMutation
import ObjectScript.Core.Buffer
import ObjectScript.Gc.State
import ObjectScript.Gc.Collect
import ObjectScript.Gc.Candidates
import ObjectScript.Gc.Balance
import ObjectScript.Gc.Release
import ObjectScript.Gc.CandidateLoop
import ObjectScript.Gc.Mark
import ObjectScript.Gc.Sweep
import ObjectScript.Gc.Collection
import ObjectScript.Gc.Operations
import ObjectScript.Gc.Moves
import ObjectScript.Gc.Places
import ObjectScript.Gc.Steps
import ObjectScript.Gc.Creation
import ObjectScript.Gc.Runs
import ObjectScript.Gc.Reclaim
import ObjectScript.Vm.Number
import ObjectScript.Vm.Operators
import ObjectScript.Vm.OperatorAgreement
import ObjectScript.Vm.Comparison
import ObjectScript.Vm.Calls
import ObjectScript.Vm.Exceptions
import ObjectScript.Vm.ArrayIndex
import ObjectScript.Vm.ArraySearch
import ObjectScript.Objects.AccessorRecursion
import ObjectScript.Objects.PropertyWrite
import ObjectScript.Objects.PropertyPath
import ObjectScript.Objects.PathAssignment
import ObjectScript.Objects.PathProperties
import ObjectScript.Objects.NewInstance
import ObjectScript.Objects.CloneBetween
import ObjectScript.Objects.Conversions
import ObjectScript.Heap.PageNumbers
import ObjectScript.Heap.StatsRuns
import ObjectScript.Json.Retain
import ObjectScript.Json.StringCodec
import ObjectScript.Vm.UnpackSafety
import ObjectScript.Vm.PackRoundTrip
import ObjectScript.Strings.Sub
import ObjectScript.Strings.Split
import ObjectScript.Strings.Utf8Text
import ObjectScript.Strings.IntegerText
import ObjectScript.Strings.FloatText
import ObjectScript.Strings.QuotedText
import ObjectScript.Strings.UrlCodec
import ObjectScript.Compiler.Template
import ObjectScript.Compiler.Assignments
import ObjectScript.Compiler.CallCode
import ObjectScript.Compiler.CodeMeaning
