import Eddy.Lib.Outcome
import Eddy.Lib.Slots
import Eddy.Lib.Fence
import Eddy.Lib.Run
import Eddy.Lib.PageTree
import Eddy.Lib.SearchTree
import Eddy.Index.State
import Eddy.Index.Txn
import Eddy.Index.Conn
import Eddy.Index.Geometry
import Eddy.Index.Alloc
import Eddy.Index.Nodes
import Eddy.Index.Bpt
import Eddy.Index.Modify
import Eddy.Index.Cursor
import Eddy.Index.Writes
import Eddy.Index.Near
import Eddy.Index.Life
import Eddy.Index.Page
import Eddy.Index.Doomed
import Eddy.Index.Frame
import Eddy.Index.CopyOnWrite
import Eddy.Index.Effects
import Eddy.Index.Relink
import Eddy.Index.LinkSplit
import Eddy.Index.PageSplit
import Eddy.Index.SplitBranch
import Eddy.Index.Inserted
import Eddy.Index.SplitParent
import Eddy.Index.InsertParent
import Eddy.Index.Trees
import Eddy.Index.Graft
import Eddy.Index.Descend
import Eddy.Index.LeafRoom
import Eddy.Index.SplitLeaf
import Eddy.Lib.Multimap
import Eddy.Index.Order
import Eddy.Index.Insert
import Eddy.Index.Start
import Eddy.Index.Reopen
import Eddy.Index.Roots
import Eddy.Index.Delete
import Eddy.Index.InsertFull
import Eddy.Index.Verify
import Eddy.Index.Routed
import Eddy.Index.Accepted
import Eddy.Lib.Blocks
import Eddy.Index.Walk
import Eddy.Index.Positions
import Eddy.Index.Built
import Eddy.Index.Mods
import Eddy.Index.Repair
import Eddy.System.Model
import Eddy.System.Steps
import Eddy.System.Calls
import Eddy.System.Failing
import Eddy.System.Store
import Eddy.System.Isolated
import Eddy.System.Xid
import Eddy.System.Writers
import Eddy.System.Active
import Eddy.System.Atomic
import Eddy.System.Pending
import Eddy.Protocol.Model
import Eddy.Protocol.Moves
import Eddy.Protocol.Snapshot
import Eddy.Protocol.Clock
import Eddy.Protocol.Stock
import Eddy.Protocol.Reuse
import Eddy.Protocol.Leaks
import Eddy.Lib.Bytes
import Eddy.Lib.Crc
import Eddy.Lib.Strides
import Eddy.Hash.Tables
import Eddy.Hash.Crc
import Eddy.Hash.Checksum
import Eddy.Lib.Ranges
import Eddy.Lib.AddrSpace
import Eddy.Cache.Object
import Eddy.Cache.Time
import Eddy.Cache.Mapping
import Eddy.Cache.Calls
import Eddy.Cache.Mapped
import Eddy.Cache.Locks
import Eddy.Cache.Reserve
import Eddy.Cache.Format
import Eddy.Cache.RoundTrip
import Eddy.Lib.Packed
import Eddy.Gc.Model
import Eddy.Gc.Lists
import Eddy.Gc.Chain
import Eddy.Gc.Alloc
import Eddy.Gc.Room
import Eddy.Gc.Insert
import Eddy.Gc.Free
import Eddy.Gc.Run
import Eddy.Gc.Tags
import Eddy.Stat.Marks
import Eddy.Mime.Charset
import Eddy.Mime.Utf16
import Eddy.Mime.Utf8
import Eddy.Lib.Halving
import Eddy.Mime.Cache
import Eddy.Mime.Search
import Eddy.Mime.Match
import Eddy.Mime.Extent
import Eddy.Mime.Contained
import Eddy.Lib.LexPath
import Eddy.Path.Clean
import Eddy.Rnd.Buf
import Eddy.Stat.Tree
import Eddy.System.Allocator
