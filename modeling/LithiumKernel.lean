import LithiumKernel.Lib.Wp
import LithiumKernel.Lib.Forest
import LithiumKernel.Lib.Bits
import LithiumKernel.Mm.Pmm
import LithiumKernel.Mm.Vmm
import LithiumKernel.Mm.PageEntry
import LithiumKernel.Mm.AddressSpace
import LithiumKernel.Mm.Walk
import LithiumKernel.Mm.Teardown
import LithiumKernel.Mm.Fork
import LithiumKernel.Mm.Fault
import LithiumKernel.Lib.Run
import LithiumKernel.Mm.KernelMap
import LithiumKernel.Mm.UserMemory
import LithiumKernel.Mm.Spaces
import LithiumKernel.Mm.SpaceRun
import LithiumKernel.Mm.FrameAccounting
import LithiumKernel.Mm.CowIsolation
import LithiumKernel.Proc.Elf
import LithiumKernel.Mm.Heap
import LithiumKernel.Syscall.KernelWindow
import LithiumKernel.Lib.Links
import LithiumKernel.Sched.Task
import LithiumKernel.Mm.PmmInit
import LithiumKernel.Mm.PmmRun
import LithiumKernel.Mm.IdentityWindow
import LithiumKernel.Lib.ByteMem
import LithiumKernel.Mm.KernelMemory
import LithiumKernel.Mm.HeapSlabs
import LithiumKernel.Mm.HeapCalls
import LithiumKernel.Mm.HeapRun
import LithiumKernel.Mm.HeapSafety
import LithiumKernel.Fs.Path
import LithiumKernel.Fs.Vfs
import LithiumKernel.Fs.Tree
import LithiumKernel.Fs.Calls
import LithiumKernel.Fs.Namespace
import LithiumKernel.Fs.ByteFiles
import LithiumKernel.Mm.KernelHalf
import LithiumKernel.Syscall.Growth
import LithiumKernel.Drivers.Ps2kbd
import LithiumKernel.Mm.PmmFit
import LithiumKernel.Lib.Checked
import LithiumKernel.Proc.ElfSafety
import LithiumKernel.Proc.ElfImage
import LithiumKernel.Proc.ElfFrames
import LithiumKernel.Lib.Radix
import LithiumKernel.Mm.PageMap
import LithiumKernel.Mm.PageFrames
import LithiumKernel.Mm.SpaceTree
import LithiumKernel.Mm.FailedClone
import LithiumKernel.Lib.ArgVec
import LithiumKernel.Syscall.UserCopy
import LithiumKernel.Syscall.ExecArgs
import LithiumKernel.Mm.KernelWork
import LithiumKernel.Syscall.Execve
import LithiumKernel.Syscall.UserRange
import LithiumKernel.Syscall.Munmap
import LithiumKernel.Syscall.PageLoops
import LithiumKernel.Syscall.FailedGrowth
import LithiumKernel.Syscall.UserCopies
import LithiumKernel.Fs.Sizes
import LithiumKernel.Syscall.FileIo
import LithiumKernel.Syscall.FileTransfer
import LithiumKernel.Drivers.Detection
import LithiumKernel.Drivers.HeldKeys
import LithiumKernel.Power.S5Package
import LithiumKernel.Power.S5Bounds
import LithiumKernel.Lib.Loop
import LithiumKernel.Power.Acpi
import LithiumKernel.Power.Mb2Walk
import LithiumKernel.Fs.Normalize
import LithiumKernel.Fs.Resolve
import LithiumKernel.Fs.ReadBack
import LithiumKernel.Fs.Readdir
import LithiumKernel.Mm.HeapSizes
import LithiumKernel.Mm.HeapFailure
import LithiumKernel.Lib.WordStack
import LithiumKernel.Syscall.Entry
import LithiumKernel.Drivers.KbdBuffer
import LithiumKernel.Klib.Strncpy
import LithiumKernel.Klib.Numbers
import LithiumKernel.User.Shell
import LithiumKernel.Sched.Loaded
import LithiumKernel.Sched.Runs
