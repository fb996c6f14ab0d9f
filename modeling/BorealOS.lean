import BorealOS.Library.TableTree
import BorealOS.Library.ByteObject
import BorealOS.Library.Transition
import BorealOS.Library.LockTable
import BorealOS.Library.Journal
import BorealOS.Library.Switch
import BorealOS.Library.Exclusive
import BorealOS.Library.Numeral
import BorealOS.Library.StackMemory
import BorealOS.Library.Occurrence
import BorealOS.Library.Copying
import BorealOS.Library.BitField
import BorealOS.MemOps
import BorealOS.Memory.FrameAllocation
import BorealOS.Memory.AllocatorRuns
import BorealOS.Memory.AllocationCalls
import BorealOS.Memory.Replay
import BorealOS.Memory.BitmapInitialization
import BorealOS.Memory.BitmapStorage
import BorealOS.Memory.BootMemory
import BorealOS.Memory.PageEntry
import BorealOS.Memory.Hierarchy
import BorealOS.Memory.HardwareWalk
import BorealOS.Memory.SoftwareWalk
import BorealOS.Memory.Mapping
import BorealOS.Memory.Unmapping
import BorealOS.Memory.AddressMap
import BorealOS.Memory.MappedPages
import BorealOS.Memory.VirtualRanges
import BorealOS.Memory.TableOwnership
import BorealOS.Memory.KernelHalf
import BorealOS.Memory.HugePages
import BorealOS.Memory.TableCopy
import BorealOS.Memory.BootTables
import BorealOS.Memory.AccessRights
import BorealOS.Memory.CopyExhaustion
import BorealOS.Memory.PagingInitialization
import BorealOS.Utility.StringView
import BorealOS.Utility.Formatter
import BorealOS.Utility.CommandLineExtractor
import BorealOS.Utility.Arguments
import BorealOS.Utility.SplitPasses
import BorealOS.Utility.Lookup
import BorealOS.Utility.CommandLine
import BorealOS.Utility.CommandLineSafety
import BorealOS.Utility.CommandLineContract
import BorealOS.Utility.ExtraSpaces
import BorealOS.Utility.ParseGrammar
import BorealOS.Utility.NumberText
import BorealOS.Utility.FormatAgreement
import BorealOS.Utility.ViewSearch
import BorealOS.Utility.StringSearch
import BorealOS.Firmware.ACPI
import BorealOS.Firmware.MADTWalk
import BorealOS.Firmware.MADTEntries
import BorealOS.Firmware.RootTrust
import BorealOS.Firmware.Checksums
import BorealOS.Firmware.TableLookup
import BorealOS.Firmware.CommandMachine
import BorealOS.Firmware.CommandSwitch
import BorealOS.CPU.BrandString
import BorealOS.Threading.Spinlock
import BorealOS.Threading.LockDiscipline
import BorealOS.Threading.LockOrder
import BorealOS.Threading.Stack
import BorealOS.Threading.LockHierarchy
import BorealOS.Threading.CallMachine
import BorealOS.Threading.Sections
import BorealOS.Memory.AllocatorBodies
import BorealOS.Memory.ConcurrentAllocator
import BorealOS.IO.Serial
import BorealOS.IO.SerialLine
import BorealOS.Interrupts.IRQHandler
import BorealOS.Interrupts.ActivePageTable
import BorealOS.Interrupts.EndOfInterrupt
import BorealOS.Interrupts.Stub
import BorealOS.Interrupts.StackAlignment
import BorealOS.Interrupts.Vectors
import BorealOS.Interrupts.RedirectionTable
import BorealOS.Interrupts.RegisterWindow
import BorealOS.Interrupts.InterprocessorInterrupts
import BorealOS.Interrupts.IRQRouting
import BorealOS.Interrupts.IOAPICManager
import BorealOS.Interrupts.IOAPICInitialization
import BorealOS.Interrupts.Descriptors
import BorealOS.Logging.LogFmt
import BorealOS.Logging.Records
import BorealOS.Library.Erasure
import BorealOS.Library.WalkCache
import BorealOS.Memory.CachedTranslations
