import Aitos.Arch.InterruptStub
import Aitos.Arch.Descriptors
import Aitos.Arch.KernelEntry
import Aitos.Framework.Run
import Aitos.Sched.Thread
import Aitos.Sched.Sync
import Aitos.Sched.Queues
import Aitos.Sched.Scheduler
import Aitos.Framework.Amortised
import Aitos.Sched.Waiting
import Aitos.Sched.Wakeup
import Aitos.Sched.LockOwner
import Aitos.Framework.Bytes
import Aitos.Framework.Hoare
import Aitos.Fs.State
import Aitos.Fs.Inode
import Aitos.Fs.InodeTable
import Aitos.Fs.Bitmap
import Aitos.Fs.Dir
import Aitos.Fs.File
import Aitos.Fs.Syscall
import Aitos.Fs.Format
import Aitos.Fs.Frame
import Aitos.Fs.Descriptors
import Aitos.Fs.SingleWriter
import Aitos.Framework.LinkedList
import Aitos.Mm.Memory
import Aitos.Mm.FreeLists
import Aitos.Mm.Arenas
import Aitos.Sched.Pid
import Aitos.Sched.PidNumbers
import Aitos.Drivers.Ioqueue
import Aitos.Drivers.IoqueueOrder
import Aitos.Drivers.IoqueueWakeup
import Aitos.Fs.AtomicOpen
import Aitos.Proc.AddressSpace
import Aitos.Fs.Read
import Aitos.Fs.Position
import Aitos.Framework.Walk
import Aitos.Fs.Tree
import Aitos.Fs.Search
import Aitos.Fs.DirectoryCalls
import Aitos.Fs.Resolution
import Aitos.Drivers.Console
import Aitos.Framework.Tokens
import Aitos.Shell.Repl
import Aitos.Shell.LineEditor
import Aitos.Shell.Echo
import Aitos.Arch.PageTables
import Aitos.Fs.DiskInit
import Aitos.Drivers.IdeChannel
import Aitos.Drivers.IdeHandshake
import Aitos.Proc.Switch
import Aitos.Proc.SwitchResume
import Aitos.Proc.Fork
import Aitos.Proc.PageWindow
import Aitos.Proc.ForkCopy
import Aitos.Fs.Allocation
import Aitos.Fs.Insertion
import Aitos.Fs.Deletion
import Aitos.Fs.DirRead
import Aitos.Fs.Append
import Aitos.Fs.WriteLimit
import Aitos.Lib.List
import Aitos.Fs.Cwd
import Aitos.Fs.Geometry
import Aitos.Fs.WriteFailure
import Aitos.Fs.BadDescriptor
import Aitos.Mm.PageMaps
import Aitos.Mm.PageOwnership
import Aitos.Fs.Release
import Aitos.Fs.CreateFailure
import Aitos.Fs.MkdirFailure
import Aitos.Fs.Handle
import Aitos.Fs.Rmdir
import Aitos.Framework.Zoom
import Aitos.Mm.PoolInit
import Aitos.Shell.ParseLine
import Aitos.Drivers.IdeTransfer
import Aitos.Fs.DiskLevels
import Aitos.Fs.ScanRecords
import Aitos.Fs.ScanDepth
import Aitos.Fs.ScanTree
import Aitos.Mm.UserPage
import Aitos.Mm.PageLevels
import Aitos.Proc.Exec
import Aitos.Proc.SegmentLoad
import Aitos.Proc.Execv
import Aitos.Mm.Malloc
import Aitos.Mm.Free
import Aitos.Mm.HeapRun
import Aitos.Framework.Numeral
import Aitos.Framework.CString
import Aitos.Drivers.Printk
import Aitos.Drivers.PrintkFormat
import Aitos.Lib.Stdio
import Aitos.Drivers.Keyboard
import Aitos.Drivers.ShiftKeys
import Aitos.Framework.Word
import Aitos.Arch.Loader
import Aitos.Lib.Bitmap
import Aitos.Lib.BitmapLevels
import Aitos.Fs.PathParse
import Aitos.Fs.SearchedPath
import Aitos.Fs.DepthBuffer
import Aitos.Fs.SearchBuffers
import Aitos.Proc.ForkReturn
