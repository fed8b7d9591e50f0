import Ymd.Foundation.Chain
import Ymd.Foundation.StoreLog
import Ymd.Foundation.SortedLog
import Ymd.Value.Variable
import Ymd.Table.HashMap
import Ymd.Table.HashMapChains
import Ymd.Table.HashMapRefinement
import Ymd.Table.SkipList
import Ymd.Foundation.PrefixCode
import Ymd.Code.Chunk
import Ymd.Machine.Heap
import Ymd.Table.FiniteMap
import Ymd.Table.SkipListLevels
import Ymd.Table.SkipListRefinement
import Ymd.Table.SortedMap
import Ymd.Code.Literal
import Ymd.Code.Locals
import Ymd.Compiler.Cursor
import Ymd.Compiler.Emit
import Ymd.Compiler.Parse
import Ymd.Compiler.Tiling
import Ymd.Foundation.Acyclic
import Ymd.Foundation.Buckets
import Ymd.Foundation.GuardedWalk
import Ymd.Foundation.Marking
import Ymd.Foundation.Runs
import Ymd.Gc.Collect
import Ymd.Gc.Fetch
import Ymd.Gc.Protect
import Ymd.Gc.Threshold
import Ymd.Machine.Call
import Ymd.Machine.Effect
import Ymd.Machine.Entry
import Ymd.Machine.Grows
import Ymd.Pickle.Cursor
import Ymd.Pickle.Data
import Ymd.Pickle.Frame
import Ymd.Pickle.FuncFields
import Ymd.Pickle.Functions
import Ymd.Pickle.Marks
import Ymd.Pickle.Stream
import Ymd.Pickle.Termination
import Ymd.Table.Acyclic
import Ymd.Table.MapEquality
import Ymd.Table.SameHash
import Ymd.Table.ValueOrder
import Ymd.Compiler.Scope
import Ymd.Machine.Delivery
import Ymd.Value.Rendering
import Ymd.Compiler.Limits
import Ymd.Compiler.Nesting
import Ymd.Compiler.Leftovers
import Ymd.Library.NoNil
import Ymd.Library.Assignment
import Ymd.Pickle.Codec
import Ymd.Code.Numerals
import Ymd.Code.Escapes
import Ymd.Table.NewSlot
import Ymd.Table.Puts
import Ymd.Compiler.HexLiterals
import Ymd.Pickle.Size
import Ymd.Code.Constants
import Ymd.Compiler.ErrorLine
import Ymd.Foundation.Enumeration
import Ymd.Table.DynamicArray
import Ymd.Table.SkipListGrowth
import Ymd.Value.Fmtx
import Ymd.Library.Iterators
import Ymd.Library.StepIterator
import Ymd.Library.StringBuffer
import Ymd.Library.Completeness
import Ymd.Machine.Execution
import Ymd.Machine.Binding
import Ymd.Machine.Edits
import Ymd.Machine.Windows
import Ymd.Machine.Inside
import Ymd.Machine.Closures
import Ymd.Meaning.Preservation
