import Nyaux.Drivers.Decoding
import Nyaux.Drivers.KeyEvents
import Nyaux.Drivers.Madt
import Nyaux.Drivers.Ps2
import Nyaux.Drivers.RouteIrq
import Nyaux.Drivers.ScanCodes
import Nyaux.Drivers.TimedWaits
import Nyaux.Elf.ImageExact
import Nyaux.Elf.InitialStack
import Nyaux.Elf.LoadElf
import Nyaux.Elf.LoadProgram
import Nyaux.Elf.LoadReturns
import Nyaux.Elf.LoadSafety
import Nyaux.Elf.LoadedImage
import Nyaux.Elf.ProcessPages
import Nyaux.Elf.RegionWalks
import Nyaux.Elf.StackBytes
import Nyaux.Elf.UserBytes
import Nyaux.Flanterm.Cells
import Nyaux.Flanterm.Context
import Nyaux.Flanterm.ControlSequence
import Nyaux.Flanterm.Erase
import Nyaux.Flanterm.Flush
import Nyaux.Flanterm.Framebuffer
import Nyaux.Flanterm.Geometry
import Nyaux.Flanterm.Glyphs
import Nyaux.Flanterm.Init
import Nyaux.Flanterm.Lockstep
import Nyaux.Flanterm.Paper
import Nyaux.Flanterm.Params
import Nyaux.Flanterm.Pixels
import Nyaux.Flanterm.Putchar
import Nyaux.Flanterm.Queue
import Nyaux.Flanterm.Refinement
import Nyaux.Flanterm.RowEdit
import Nyaux.Flanterm.Screen
import Nyaux.Flanterm.Sgr
import Nyaux.Flanterm.Simulation
import Nyaux.Flanterm.Terminal
import Nyaux.Flanterm.Text
import Nyaux.Flanterm.Widths
import Nyaux.Fs.Create
import Nyaux.Fs.FileContents
import Nyaux.Fs.Initramfs
import Nyaux.Fs.LinkWalk
import Nyaux.Fs.Lookup
import Nyaux.Fs.ParentLookup
import Nyaux.Fs.PathCompose
import Nyaux.Fs.PathWalk
import Nyaux.Fs.Separators
import Nyaux.Fs.Shadow
import Nyaux.Fs.Tar
import Nyaux.Fs.TarSafety
import Nyaux.Fs.TemporaryBlocks
import Nyaux.Fs.Tmpfs
import Nyaux.Fs.TmpfsReads
import Nyaux.Fs.Tree
import Nyaux.Fs.UstarHeader
import Nyaux.Fs.Vfs
import Nyaux.Lib.ByteImage
import Nyaux.Lib.ByteMap
import Nyaux.Lib.CString
import Nyaux.Lib.Decimal
import Nyaux.Lib.IntervalSearch
import Nyaux.Lib.Memory
import Nyaux.Lib.NodePath
import Nyaux.Lib.Orbit
import Nyaux.Lib.Paging
import Nyaux.Lib.Paint
import Nyaux.Lib.PrefixCode
import Nyaux.Lib.SharedPaging
import Nyaux.Lib.Tlb
import Nyaux.Lib.Turns
import Nyaux.Lib.Word
import Nyaux.Lib.WriteBack
import Nyaux.Main.Moves
import Nyaux.Main.Numbers
import Nyaux.Mm.BlockBytes
import Nyaux.Mm.DirectExact
import Nyaux.Mm.DirectMap
import Nyaux.Mm.EnoughPages
import Nyaux.Mm.FirstFit
import Nyaux.Mm.FrameLaw
import Nyaux.Mm.FreeBytes
import Nyaux.Mm.FreshPages
import Nyaux.Mm.HeapCalls
import Nyaux.Mm.HeapInv
import Nyaux.Mm.HeapSafety
import Nyaux.Mm.HeapSpec
import Nyaux.Mm.KernelCalls
import Nyaux.Mm.KernelHalf
import Nyaux.Mm.KernelRegions
import Nyaux.Mm.LiveWords
import Nyaux.Mm.PageMap
import Nyaux.Mm.PageOwnership
import Nyaux.Mm.Pagemap
import Nyaux.Mm.Permissions
import Nyaux.Mm.Pmm
import Nyaux.Mm.PmmInit
import Nyaux.Mm.Realloc
import Nyaux.Mm.Region
import Nyaux.Mm.RegionInv
import Nyaux.Mm.RegionNodes
import Nyaux.Mm.RegionPages
import Nyaux.Mm.RegionSteps
import Nyaux.Mm.SharedTables
import Nyaux.Mm.SlabAlloc
import Nyaux.Mm.TableTree
import Nyaux.Mm.UserHalf
import Nyaux.Mm.UserPages
import Nyaux.Mm.UserRegions
import Nyaux.Mm.UserSpace
import Nyaux.Mm.Vmm
import Nyaux.Mm.VmmInit
import Nyaux.Printf.Directive
import Nyaux.Printf.FormatSpec
import Nyaux.Printf.Kprintf
import Nyaux.Printf.Numerals
import Nyaux.Printf.Vpprintf
import Nyaux.Printf.Vsnprintf
import Nyaux.Sched.GsBase
import Nyaux.Sched.RoundRobin
import Nyaux.Sched.SwitchTask
import Nyaux.Syscall.BadDescriptors
import Nyaux.Syscall.CachedEntries
import Nyaux.Syscall.CachedRuns
import Nyaux.Syscall.Console
import Nyaux.Syscall.Descriptors
import Nyaux.Syscall.Files
import Nyaux.Syscall.FreshMappings
import Nyaux.Syscall.MappedRanges
import Nyaux.Syscall.Mmap
import Nyaux.Syscall.SeekExact
import Nyaux.Syscall.SequentialReads
import Nyaux.Syscall.StaleEntries
