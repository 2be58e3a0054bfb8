import CS24.Machine.Memory
import CS24.Machine.Tiling
import CS24.Machine.Transition
import CS24.Machine.Program
import CS24.Machine.Fuel
import CS24.Machine.RefCount
import CS24.Machine.Linked
import CS24.Malloc.Mm
import CS24.Malloc.Heap
import CS24.Malloc.Operations
import CS24.Malloc.Client
import CS24.Malloc.Integrity
import CS24.Malloc.Survival
import CS24.TeenyBasic.Ast
import CS24.TeenyBasic.Assembly
import CS24.TeenyBasic.Compile
import CS24.TeenyBasic.Expressions
import CS24.TeenyBasic.Labels
import CS24.TeenyBasic.Correctness
import CS24.TeenyBasic.Frame
import CS24.TeenyBasic.Parser
import CS24.TeenyBasic.Stream
import CS24.TeenyBasic.Grammar
import CS24.TeenyBasic.Layout
import CS24.TeenyBasic.Reading
import CS24.TeenyBasic.Statements
import CS24.TeenyBasic.RoundTrip
import CS24.TeenyBasic.Scanner
import CS24.TeenyBasic.Termination
import CS24.TeenyJvm.ClassFile
import CS24.TeenyJvm.Execute
import CS24.TeenyJvm.Specification
import CS24.TeenyJvm.Decoding
import CS24.TeenyJvm.Refinement
import CS24.Subpython.Types
import CS24.Subpython.Mm
import CS24.Subpython.Refs
import CS24.Subpython.Heap
import CS24.Subpython.Decref
import CS24.Subpython.Release
import CS24.Proxy.Cache
import CS24.Proxy.Representation
import CS24.Proxy.Integrity
import CS24.Proxy.Eviction
import CS24.Proxy.Lookup
import CS24.Proxy.Request
import CS24.Proxy.Response
import CS24.Proxy.Storing
import CS24.Proxy.Locks
import CS24.Subpython.Ast
import CS24.Subpython.Values
import CS24.Subpython.Scalars
import CS24.Subpython.Containers
import CS24.Subpython.Dispatch
import CS24.Subpython.Eval
import CS24.Malloc.Steps
import CS24.Malloc.Walk
import CS24.Malloc.Coalescing
import CS24.Malloc.Twins
import CS24.Malloc.Reinit
import CS24.Machine.FileReader
import CS24.TeenyJvm.ReadClass
import CS24.TeenyJvm.Encoding
import CS24.TeenyJvm.Resolution
import CS24.Machine.Preorder
import CS24.Subpython.Copying
import CS24.Subpython.Collection
import CS24.Subpython.Collector
import CS24.Subpython.Survivors
import CS24.Subpython.Accounting
import CS24.Subpython.Preservation
import CS24.Machine.BestFit
import CS24.Subpython.Allocation
import CS24.TeenyBasic.Alignment
import CS24.TeenyJvm.Division
import CS24.TeenyBasic.Branches
import CS24.TeenyBasic.Numbers
import CS24.Malloc.Wrapping
import CS24.Machine.PartialCompare
import CS24.Subpython.Ordering
import CS24.Subpython.Comparing
import CS24.Subpython.Slots
import CS24.Subpython.Sequences
import CS24.Subpython.Creation
import CS24.Subpython.Literals
import CS24.Malloc.FirstFit
import CS24.Meltdown.Vote
import CS24.Proxy.Recency
import CS24.Subpython.Messages
import CS24.Subpython.Probing
import CS24.Proxy.RequestLine
import CS24.Proxy.Headers
import CS24.Machine.Resources
import CS24.Proxy.Handler
import CS24.Malloc.Driver
import CS24.TeenyBasic.Program
import CS24.TeenyJvm.Main
import CS24.Machine.Pieces
import CS24.Subpython.Arena
import CS24.Subpython.Indentation
import CS24.Subpython.Printing
import CS24.Subpython.Creation
import CS24.Subpython.Literals
