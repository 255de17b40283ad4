import FerrisFS.Device.Cached
import FerrisFS.Device.Eviction
import FerrisFS.Device.File
import FerrisFS.Device.Lru
import FerrisFS.Device.Memory
import FerrisFS.Device.Stack
import FerrisFS.Device.Transparency
import FerrisFS.Error
import FerrisFS.Fuse.FormatV1
import FerrisFS.Fuse.Lookup
import FerrisFS.Fuse.Moves
import FerrisFS.Fuse.Paging
import FerrisFS.Fuse.Readdir
import FerrisFS.Fuse.Readlink
import FerrisFS.Fuse.Rename
import FerrisFS.Fuse.Server
import FerrisFS.Fuse.Serving
import FerrisFS.Fuse.Setattr
import FerrisFS.Lib.Bytes
import FerrisFS.Lib.FileStore
import FerrisFS.Lib.Ghost
import FerrisFS.Lib.Invariance
import FerrisFS.Lib.Links
import FerrisFS.Lib.Namespace
import FerrisFS.Lib.Ownership
import FerrisFS.Lib.Preorder
import FerrisFS.Lib.Prog
import FerrisFS.Lib.Recency
import FerrisFS.Lib.Refine
import FerrisFS.Lib.Rows
import FerrisFS.System.Files
import FerrisFS.System.Handles
import FerrisFS.System.Integrity
import FerrisFS.System.Isolation
import FerrisFS.System.Naming
import FerrisFS.System.Requests
import FerrisFS.System.Sound
import FerrisFS.System.Store
import FerrisFS.System.Upright
import FerrisFS.V1.Audit
import FerrisFS.V1.Batches
import FerrisFS.V1.Bitmap
import FerrisFS.V1.BitmapSet
import FerrisFS.V1.BitmapSpec
import FerrisFS.V1.Checks
import FerrisFS.V1.Chunks
import FerrisFS.V1.Clean
import FerrisFS.V1.Coherent
import FerrisFS.V1.Consistent
import FerrisFS.V1.Create
import FerrisFS.V1.Delete
import FerrisFS.V1.Deletion
import FerrisFS.V1.DirOps
import FerrisFS.V1.Directory
import FerrisFS.V1.Enter
import FerrisFS.V1.Failures
import FerrisFS.V1.FileData
import FerrisFS.V1.Files
import FerrisFS.V1.Follow
import FerrisFS.V1.Footprint
import FerrisFS.V1.Format
import FerrisFS.V1.Geometry
import FerrisFS.V1.Grammar
import FerrisFS.V1.INode
import FerrisFS.V1.InodeTable
import FerrisFS.V1.Inspect
import FerrisFS.V1.Integrity
import FerrisFS.V1.Invariant
import FerrisFS.V1.Layout
import FerrisFS.V1.Leaks
import FerrisFS.V1.Link
import FerrisFS.V1.LinkCounts
import FerrisFS.V1.Listing
import FerrisFS.V1.Mount
import FerrisFS.V1.Names
import FerrisFS.V1.Nesting
import FerrisFS.V1.NoAlarm
import FerrisFS.V1.Observe
import FerrisFS.V1.Order
import FerrisFS.V1.Packing
import FerrisFS.V1.Path
import FerrisFS.V1.PointerTree
import FerrisFS.V1.Positions
import FerrisFS.V1.Records
import FerrisFS.V1.Remount
import FerrisFS.V1.Removal
import FerrisFS.V1.Resolve
import FerrisFS.V1.Runs
import FerrisFS.V1.Search
import FerrisFS.V1.Sessions
import FerrisFS.V1.Siblings
import FerrisFS.V1.Slots
import FerrisFS.V1.State
import FerrisFS.V1.Steps
import FerrisFS.V1.Substitution
import FerrisFS.V1.Superblock
import FerrisFS.V1.Symlinks
import FerrisFS.V1.Tails
import FerrisFS.V1.Tree
import FerrisFS.V1.Truncation
import FerrisFS.V1.View
import FerrisFS.V1.WellFormed
import FerrisFS.V1.Write
