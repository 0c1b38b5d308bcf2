import Pumelo.AddressSpaces
import Pumelo.AtaDisk
import Pumelo.BitmapScan
import Pumelo.BitmapSync
import Pumelo.NumberField
import Pumelo.PrintLock
import Pumelo.DiskProtocol
import Pumelo.Exhaustion
import Pumelo.FileTable
import Pumelo.FirstRun
import Pumelo.Frames
import Pumelo.HeapRun
import Pumelo.InodeTable
import Pumelo.Interrupt
import Pumelo.IoQueueCalls
import Pumelo.KernelInit
import Pumelo.ListHeap
import Pumelo.LockNesting
import Pumelo.LockRun
import Pumelo.MallocCall
import Pumelo.MemoryMap
import Pumelo.PageRoundTrip
import Pumelo.PoolLayout
import Pumelo.Switch
import Pumelo.UserPages
import Pumelo.Foundation.Chain
import Pumelo.Foundation.System
import Pumelo.Format
import Pumelo.FilesysInit
import Pumelo.SchedulerLimit
import Pumelo.SemaphoreRun
import Pumelo.Tlb
import Pumelo.Boot
import Pumelo.IntrRun
import Pumelo.ConsolePrint
import Pumelo.SchedulerWait
import Pumelo.Snprintf
import Pumelo.Strtol
import Pumelo.UserRun
import Pumelo.NewProcess
import Pumelo.Tss
import Pumelo.Panic
import Pumelo.BusyWait
import Pumelo.MemoryMove
import Pumelo.Descriptors
