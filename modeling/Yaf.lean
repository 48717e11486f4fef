import Yaf.Lib.Prog
import Yaf.Lib.Mem
import Yaf.Lib.Cache
import Yaf.Layout
import Yaf.World
import Yaf.Bitmap
import Yaf.Pressure
import Yaf.Inode
import Yaf.View
import Yaf.Dentry
import Yaf.File
import Yaf.Dir
import Yaf.Mkfs
import Yaf.Tool
import Yaf.Vfs
import Yaf.Effects
import Yaf.Blocks
import Yaf.Accounting
import Yaf.Owners
import Yaf.Remount
import Yaf.Listing
import Yaf.Lib.Forest
import Yaf.Namespace
import Yaf.Refine
import Yaf.Writing
import Yaf.Simulation
import Yaf.Directories
import Yaf.Stale
import Yaf.Failures
import Yaf.Locks
import Yaf.Lib.Atomic
import Yaf.Concurrent
import Yaf.Resume
import Yaf.Deletion
import Yaf.Mapping
import Yaf.Agreement
import Yaf.Growth
import Yaf.Consistency
import Yaf.Bindings
import Yaf.Contents
import Yaf.Gaps
import Yaf.Handles
import Yaf.Panics
import Yaf.Outcome
import Yaf.Isolation
import Yaf.Lib.Match
import Yaf.Replay
import Yaf.Lib.Paths
import Yaf.Paths
import Yaf.Transfers
import Yaf.Stamps
import Yaf.Lib.Layer
import Yaf.Pages
import Yaf.Writeback
import Yaf.Confinement
import Yaf.Sessions
import Yaf.Buffers
import Yaf.Coherence
import Yaf.Caches
import Yaf.Aliasing
import Yaf.Lasting
