import Microkernel.Message
import Microkernel.Kernel
import Microkernel.Scheduler
import Microkernel.Interrupt
import Microkernel.Runs
import Microkernel.System
import Microkernel.FirstMin
import Microkernel.Selection
import Microkernel.Frame
import Microkernel.TaskTable
import Microkernel.Quiet
import Microkernel.Delivery
import Microkernel.Completion
import Microkernel.Reply
import Microkernel.Machine
import Microkernel.Blocking
import Microkernel.Context
import Microkernel.References
import Microkernel.Notification
import Microkernel.ServerLoop
import Microkernel.ServerAnswers
import Microkernel.ServerProgress
import Microkernel.ByteMemory
import Microkernel.Heap
import Microkernel.BlockList
import Microkernel.HeapRefinement
import Microkernel.HeapRuns
import Microkernel.Bitmap
import Microkernel.Pmm
import Microkernel.PmmRuns
import Microkernel.Paging
import Microkernel.PagingSpec
import Microkernel.Owners
import Microkernel.PagingRuns
import Microkernel.Isolation
import Microkernel.UserAccess
import Microkernel.Elf
import Microkernel.ElfPages
import Microkernel.ElfReads
import Microkernel.ElfMemory
import Microkernel.Disk
import Microkernel.Fat16
import Microkernel.Fat16Geometry
import Microkernel.Fat16Names
import Microkernel.Fat16Files
import Microkernel.LinkedChain
import Microkernel.Fat16Lookup
import Microkernel.Paths
import Microkernel.Ramfs
import Microkernel.RamfsTree
import Microkernel.VfsRouting
import Microkernel.Procfs
import Microkernel.RamfsContents
import Microkernel.BitStream
import Microkernel.PrefixCode
import Microkernel.Inflate
import Microkernel.InflateReader
import Microkernel.InflateTrees
import Microkernel.Deflate
import Microkernel.InflateCorrect
import Microkernel.InflateHalts
import Microkernel.Png
import Microkernel.PngFormat
import Microkernel.PngDecode
import Microkernel.Buffers
import Microkernel.Ntfs
import Microkernel.NtfsBounds
import Microkernel.NtfsReads
import Microkernel.StatRead
import Microkernel.Syscalls
import Microkernel.Privilege
import Microkernel.FramedStream
import Microkernel.Virgl
import Microkernel.RingLog
import Microkernel.Virtqueue
import Microkernel.VirtqueueRuns
import Microkernel.Windows
import Microkernel.WindowRuns
import Microkernel.GpuCommand
import Microkernel.GpuMatching
import Microkernel.Drafts
import Microkernel.Net
import Microkernel.NetBounds
import Microkernel.Ping
import Microkernel.Rounds
import Microkernel.Fat16Halts
import Microkernel.Fat16Returns
import Microkernel.Accounts
import Microkernel.LoadSteps
import Microkernel.Desktop
import Microkernel.KernelEntries
import Microkernel.DesktopPages
import Microkernel.ElfWindows
import Microkernel.DesktopRuns
import Microkernel.IdentityMap
import Microkernel.Choice
import Microkernel.SleepTime
import Microkernel.ServiceRegistry
import Microkernel.HeapSizes
import Microkernel.StaleFree
import Microkernel.PageFrees
import Microkernel.SpaceAccounts
import Microkernel.KernelTranslation
import Microkernel.ElfSegments
import Microkernel.ElfImage
import Microkernel.RamfsLookup
import Microkernel.Fat16ShortNames
import Microkernel.Fat16Mounting
import Microkernel.Stretches
import Microkernel.Fat16DirSlots
import Microkernel.Fat16LongNames
import Microkernel.Fat16Table
import Microkernel.RamfsCwd
import Microkernel.RamfsFailures
import Microkernel.RamfsPaths
import Microkernel.RamfsListing
import Microkernel.Fat16InOrder
import Microkernel.Fat16Overwrite
import Microkernel.ByteNumbers
import Microkernel.NtfsRunCodec
import Microkernel.NtfsFixup
import Microkernel.NtfsRunMap
import Microkernel.BufferPieces
import Microkernel.NtfsRecordWrites
import Microkernel.NtfsIndexEntries
import Microkernel.NtfsDirRecords
import Microkernel.NtfsIndexRoundTrip
import Microkernel.NtfsBuildRecord
import Microkernel.NtfsBuiltRecords
import Microkernel.ByteBitmap
import Microkernel.NtfsClusters
import Microkernel.LongDivision
import Microkernel.NtfsDivision
import Microkernel.InflateCopies
import Microkernel.Walks
import Microkernel.PngWalk
import Microkernel.Fat16TwoLookups
import Microkernel.DnsResponse
import Microkernel.NetFields
import Microkernel.DraftPieces
import Microkernel.OnesComplement
import Microkernel.EchoReply
import Microkernel.UdpSend
import Microkernel.DnsQuery
import Microkernel.VirtioInput
import Microkernel.VirtioInputRuns
import Microkernel.ImageLoad
import Microkernel.ImagePixels
import Microkernel.ImageBounds
import Microkernel.TgaPackets
import Microkernel.PngAgree
import Microkernel.ImageHistory
import Microkernel.Fat16Freeing
import Microkernel.Fat16Data
import Microkernel.Wildcards
import Microkernel.Glob
import Microkernel.TextLines
import Microkernel.Grep
import Microkernel.CutText
import Microkernel.Ksnprintf
import Microkernel.ProcGenerators
import Microkernel.Env
import Microkernel.EnvExpand
import Microkernel.SlotTable
import Microkernel.EnvRuns
import Microkernel.Machines
import Microkernel.Login
import Microkernel.Keyboard
import Microkernel.RingQueue
import Microkernel.KeyboardRing
import Microkernel.KeyboardCallback
import Microkernel.TextWindow
import Microkernel.Terminal
import Microkernel.TerminalSheet
import Microkernel.Script
import Microkernel.CStrings
import Microkernel.Editor
import Microkernel.EditorText
import Microkernel.EditorRuns
import Microkernel.EditorOpen
import Microkernel.Readline
import Microkernel.ReadlineRuns
import Microkernel.ReadlineScreen
import Microkernel.SpecialKeys
import Microkernel.FrameDecoder
import Microkernel.Ps2Mouse
import Microkernel.AtaBus
import Microkernel.Ata
import Microkernel.AtaRuns
import Microkernel.WordSplit
import Microkernel.ShellWords
import Microkernel.HistoryRuns
import Microkernel.Execute
import Microkernel.Redirect
