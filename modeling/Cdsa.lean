import Cdsa.Core.LTS
import Cdsa.Core.Amortised
import Cdsa.Core.Cursor
import Cdsa.Core.Slots
import Cdsa.Core.Ring
import Cdsa.Core.CStr
import Cdsa.Core.FinMap
import Cdsa.Core.Chain
import Cdsa.Core.Lanes
import Cdsa.Core.Dfs
import Cdsa.Core.Graph
import Cdsa.Core.Block
import Cdsa.Core.Word
import Cdsa.Core.Heap
import Cdsa.Core.Pools
import Cdsa.Core.Probing
import Cdsa.Core.Draws
import Cdsa.Core.LaneCost
import Cdsa.L1Memory.Status
import Cdsa.L1Memory.Tracked
import Cdsa.L1Memory.Kpool
import Cdsa.L1Memory.Arena
import Cdsa.L1Memory.Bytes
import Cdsa.L1Memory.Slab
import Cdsa.L1Memory.Contents
import Cdsa.L1Memory.Tenants
import Cdsa.L1Memory.Telemetry
import Cdsa.L2Hashmap.Table
import Cdsa.L2Hashmap.Layout
import Cdsa.L2Hashmap.Insert
import Cdsa.L2Hashmap.Put
import Cdsa.L2Hashmap.Resize
import Cdsa.L2Hashmap.Remove
import Cdsa.L2Hashmap.Peak
import Cdsa.L2Hashmap.Runs
import Cdsa.L2Hashmap.Probes
import Cdsa.L2Hashmap.Iterate
import Cdsa.L2Hashmap.Canonical
import Cdsa.L2Hashmap.Flooding
import Cdsa.L2Hashmap.Growth
import Cdsa.L2Hashmap.Borrowed
import Cdsa.L2Skiplist.List
import Cdsa.L2Skiplist.Towers
import Cdsa.L2Skiplist.Insert
import Cdsa.L2Skiplist.Remove
import Cdsa.L2Skiplist.Range
import Cdsa.L2Skiplist.Runs
import Cdsa.L2Skiplist.Levels
import Cdsa.L2Skiplist.Express
import Cdsa.L2Skiplist.Failure
import Cdsa.L2Skiplist.Iterate
import Cdsa.L2Skiplist.Teardown
import Cdsa.L2Skiplist.Coins
import Cdsa.L2Skiplist.Placed
import Cdsa.L2Skiplist.Expected
import Cdsa.L2Linkedlist.List
import Cdsa.L2Linkedlist.Iterate
import Cdsa.L2Vector.Vector
import Cdsa.L2Vector.Runs
import Cdsa.L2Vector.Growth
import Cdsa.L2Vector.Stack
import Cdsa.L2Vector.Iterate
import Cdsa.L2Kstring.Kstring
import Cdsa.L2Kstring.Runs
import Cdsa.L2Kstring.Growth
import Cdsa.L2Ring.Ringbuffer
import Cdsa.L2Ring.Deque
import Cdsa.L2Ring.Iterate
import Cdsa.L2Priority.Queue
import Cdsa.L2Priority.Sift
import Cdsa.L2Priority.Runs
import Cdsa.L2Priority.Failure
import Cdsa.L2Priority.Comparisons
import Cdsa.L2Art.Node
import Cdsa.L2Art.Tree
import Cdsa.L2Art.Routing
import Cdsa.L2Art.Morph
import Cdsa.L2Art.Slab
import Cdsa.L2Art.Shape
import Cdsa.L2Art.Prefix
import Cdsa.L2Art.Search
import Cdsa.L2Art.Grow
import Cdsa.L2Art.Insert
import Cdsa.L2Art.Shrink
import Cdsa.L2Art.Layouts
import Cdsa.L2Art.Delete
import Cdsa.L2Art.Ops
import Cdsa.L2Art.Refine
import Cdsa.L2Art.Absent
import Cdsa.L2Art.Occupancy
import Cdsa.L2Art.Teardown
import Cdsa.L2Art.Iterate
import Cdsa.L2Art.Walk
import Cdsa.L2Art.Enumerate
import Cdsa.L2Art.Minimum
import Cdsa.L2Art.Oom
import Cdsa.L2Art.Remove
import Cdsa.L2Art.Blocks
import Cdsa.L2Art.Forks
import Cdsa.L2Art.Print
import Cdsa.L2Art.Room
import Cdsa.L2Art.Buffers
import Cdsa.L2Art.Account
import Cdsa.L2Art.Access
import Cdsa.L2Art.Stock
import Cdsa.L2Art.Bounded
import Cdsa.L2Art.Canonical
import Cdsa.L3Sizes.Constructors
import Cdsa.L3Iterators.Snapshot
import Cdsa.L3Iterators.FailFast
import Cdsa.L3Session.Arrays
import Cdsa.L3Session.Scratch
import Cdsa.L3Session.Nodes
import Cdsa.L3Session.Suite
