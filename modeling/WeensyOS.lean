import WeensyOS.ByteMemory
import WeensyOS.Arch
import WeensyOS.VirtualMemory
import WeensyOS.TableTree
import WeensyOS.PageInfo
import WeensyOS.TrapFrame
import WeensyOS.Console
import WeensyOS.KernelState
import WeensyOS.Exception
import WeensyOS.Boot
import WeensyOS.Runs
import WeensyOS.RefLedger
import WeensyOS.Machine
import WeensyOS.ProcessTable
import WeensyOS.World
import WeensyOS.Simulation
import WeensyOS.Consistency
import WeensyOS.Duplicate
import WeensyOS.WorldInvariants
import WeensyOS.ForkRefinement
import WeensyOS.TrapRefinement
import WeensyOS.BootWorld
import WeensyOS.BootRefinement
import WeensyOS.Refinement
import WeensyOS.Scheduling
import WeensyOS.RegisterContexts
import WeensyOS.RefCounting
import WeensyOS.Discipline
import WeensyOS.ReferenceCounts
import WeensyOS.Accounting
import WeensyOS.Ownership
import WeensyOS.KernelIsolation
import WeensyOS.MemoryIntegrity
import WeensyOS.Exhaustion
import WeensyOS.CountWraparound
import WeensyOS.PageWalk
import WeensyOS.MapRange
import WeensyOS.SysMapping
import WeensyOS.PageAlloc
import WeensyOS.Cloning
import WeensyOS.ForkCopies
import WeensyOS.ForkAtomicity
import WeensyOS.SegmentContents
import WeensyOS.ProcessSetup
import WeensyOS.PageinfoAccess
import WeensyOS.CheckSoundness
import WeensyOS.Descriptors
import WeensyOS.DepthFirst
import WeensyOS.DiskImage
import WeensyOS.PartitionSearch
import WeensyOS.Printer
import WeensyOS.ConsolePrinter
import WeensyOS.StringPrinter
import WeensyOS.Strings
import WeensyOS.NumberFormat
import WeensyOS.KernelImage
import WeensyOS.Noninterference
import WeensyOS.SystemRuns
import WeensyOS.KernelEntry
import WeensyOS.SystemBoot
import WeensyOS.SharedPages
import WeensyOS.LinearCongruence
import WeensyOS.Rand
import WeensyOS.UserPrograms
import WeensyOS.AllocatorProgram
import WeensyOS.AllocatorRuns
import WeensyOS.ForkProgram
import WeensyOS.ForkRuns
import WeensyOS.ForkExitProgram
import WeensyOS.ForkExitRuns
import WeensyOS.Keyboard
import WeensyOS.SoftReboot
import WeensyOS.MemoryViewer
