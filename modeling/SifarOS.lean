import SifarOS.ReachableStates
import SifarOS.ByteMemory
import SifarOS.ProcessTable
import SifarOS.ProcessWait
import SifarOS.ProcessLifecycle
import SifarOS.BlockList
import SifarOS.KernelHeap
import SifarOS.KernelHeapSafety
import SifarOS.SifarFs
import SifarOS.Vfs
import SifarOS.Mkfs
import SifarOS.MkfsLayout
import SifarOS.BlockOwnership
import SifarOS.SifarFsBlocks
import SifarOS.SifarFsFiles
import SifarOS.SifarFsDirs
import SifarOS.MkfsBuild
import SifarOS.NamedTree
import SifarOS.MkfsTree
import SifarOS.MkfsImage
import SifarOS.MountedImage
import SifarOS.VfsTree
import SifarOS.MountedTree
import SifarOS.VfsPaths
import SifarOS.VfsRefinement
import SifarOS.Graphics
import SifarOS.WindowServer
import SifarOS.WindowStacking
import SifarOS.MachineInt
import SifarOS.DrawnPixels
import SifarOS.Compositor
import SifarOS.WindowEdits
import SifarOS.ScreenBounds
import SifarOS.DamageTracking
import SifarOS.WindowGeometry
import SifarOS.Scheduler
import SifarOS.SchedulerSafety
import SifarOS.PartialRepaint
import SifarOS.ConcurrentFs
import SifarOS.FileIsolation
import SifarOS.RamFs
import SifarOS.ReadonlyFiles
import SifarOS.Keyboard
import SifarOS.WindowMessages
import SifarOS.WindowFocus
import SifarOS.ClientFlags
import SifarOS.MouseButtons
import SifarOS.ThreadCreation
import SifarOS.ThreadMemory
import SifarOS.ExitStatus
import SifarOS.Paging
import SifarOS.UserHeap
import SifarOS.UserHeapSafety
import SifarOS.WindowExtent
import SifarOS.DamageCoverage
import SifarOS.CanonicalPaths
import SifarOS.FileTruncation
import SifarOS.FileCalls
import SifarOS.FileContents
import SifarOS.CachedSizes
import SifarOS.FailedCreation
import SifarOS.RamFiles
import SifarOS.BitmapBounds
import SifarOS.MountTermination
import SifarOS.VfsNodes
import SifarOS.VfsNodeTree
import SifarOS.NodePaths
import SifarOS.UserAccess
import SifarOS.UserStrings
import SifarOS.WordBitmap
import SifarOS.FrameAllocator
import SifarOS.HeldFrames
import SifarOS.KernelHeapSizes
import SifarOS.AddressSpace
import SifarOS.RangeAllocation
import SifarOS.PageBytes
import SifarOS.ElfImages
import SifarOS.ElfLoader
import SifarOS.ProcessStack
import SifarOS.PrivatePages
import SifarOS.UserBreak
import SifarOS.RingHistory
import SifarOS.ConsoleLog
import SifarOS.HeapWindow
import SifarOS.HeapAccounting
import SifarOS.JoinedExits
import SifarOS.RingQueue
import SifarOS.MouseEvents
import SifarOS.FormatSink
import SifarOS.Kprintf
import SifarOS.UserFormat
import SifarOS.FormatAgreement
import SifarOS.BoundedFormat
import SifarOS.Div64
import SifarOS.ClippedDrawing
import SifarOS.ErrorTerm
import SifarOS.LineDrawing
import SifarOS.TextEditor
import SifarOS.EditorFiles
import SifarOS.EditorSafety
import SifarOS.TerminalLine
import SifarOS.LineInput
import SifarOS.LineEditor
import SifarOS.LineEcho
import SifarOS.SeparateSpaces
import SifarOS.WindowBuffers
import SifarOS.BufferMapping
import SifarOS.SteadyWindows
import SifarOS.BufferExchange
import SifarOS.AtomicBuffers
import SifarOS.BufferSwaps
