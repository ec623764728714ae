import UnifyCR.SegTree.Node
import UnifyCR.SegTree.Splice
import UnifyCR.SegTree.Inttree
import UnifyCR.SegTree.Ops
import UnifyCR.SegTree.Remnant
import UnifyCR.SegTree.AddLoop
import UnifyCR.SegTree.Calls
import UnifyCR.SegTree.Runs
import UnifyCR.SegTree.Traversal
import UnifyCR.SegTree.Coalescing
import UnifyCR.SegTree.Threads
import UnifyCR.SegTree.Linearizable
import UnifyCR.SegTree.OffsetMap
import UnifyCR.Meta.Types
import UnifyCR.Meta.Extents
import UnifyCR.Meta.Attrs
import UnifyCR.Meta.Bounds
