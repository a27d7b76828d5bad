import CProj.Lib.Store
import CProj.Lib.Lists
import CProj.Lib.Run
import CProj.Lib.RoundRobin
import CProj.Lib.Numeral
import CProj.FileIO.Student
import CProj.FileIO.Naive
import CProj.FileIO.Window
import CProj.FileIO.Calls
import CProj.FileIO.BlockWrite
import CProj.FileIO.Sessions
import CProj.FileIO.Faults
import CProj.FileIO.View
import CProj.FileIO.Flush
import CProj.FileIO.Rot13
import CProj.FileIO.ReverseCat
import CProj.FileIO.StrideCat
import CProj.FileIO.Termination
import CProj.WeensyOS.Machine
import CProj.WeensyOS.Vmiter
import CProj.WeensyOS.PageTable
import CProj.WeensyOS.Translate
import CProj.WeensyOS.Kernel
import CProj.WeensyOS.Alloc
import CProj.WeensyOS.Traverse
import CProj.WeensyOS.Free
import CProj.WeensyOS.Fork
import CProj.WeensyOS.ForkLoop
import CProj.WeensyOS.Uses
import CProj.WeensyOS.Checks
import CProj.WeensyOS.SyscallFork
import CProj.WeensyOS.SyscallPageAlloc
import CProj.WeensyOS.Invariant
import CProj.WeensyOS.Steps
import CProj.WeensyOS.Progress
import CProj.WeensyOS.Leak
import CProj.WeensyOS.Isolation
import CProj.WeensyOS.Bystanders
import CProj.WeensyOS.AddressSpace
import CProj.WeensyOS.Liveness
import CProj.WeensyOS.UserPrograms
import CProj.WeensyOS.Processes
import CProj.WeensyOS.Heaps
import CProj.WeensyOS.TidySteps
import CProj.WeensyOS.TidyPrograms
import CProj.WeensyOS.Enumerate
import CProj.WeensyOS.Positions
import CProj.WeensyOS.Mapping
import CProj.WeensyOS.Walkers
import CProj.WeensyOS.Setup
import CProj.WeensyOS.KernelMemory
import CProj.WeensyOS.Frames
import CProj.WeensyOS.Segments
import CProj.WeensyOS.Loading
import CProj.WeensyOS.ProcessSetup
import CProj.WeensyOS.Gaps
import CProj.WeensyOS.Booting
import CProj.WeensyOS.NullPage
import CProj.WeensyOS.UserRuns
import CProj.WeensyOS.Ranges
import CProj.WeensyOS.LowPages
import CProj.Libc.Strtoul
import CProj.Libc.Strtol
import CProj.Libc.Printf
import CProj.Libc.Numbers
import CProj.Libc.Formats
import CProj.Libc.Vsnprintf
import CProj.Libc.Panic
import CProj.Mksymtab.ElfInfo
import CProj.Mksymtab.Validate
import CProj.Mksymtab.Shift
import CProj.Mksymtab.Align
import CProj.Libc.RoundTrip
import CProj.Libc.Rand
import CProj.Libc.Memory
import CProj.Libc.Console
import CProj.WeensyOS.UsageMap
import CProj.BootDisk.Booting
import CProj.BootDisk.Partition
import CProj.Symtab.Lookup
import CProj.WeensyOS.Processor
import CProj.FileIO.TestOptions
import CProj.FileIO.Tester
import CProj.WeensyOS.Reboot
import CProj.WeensyOS.Display
