import Nachos.Lib.System
import Nachos.Lib.Concurrent
import Nachos.Lib.Lock
import Nachos.Lib.Device
import Nachos.Lib.Section
import Nachos.Lib.Volume
import Nachos.Lib.History
import Nachos.Lib.Word
import Nachos.Lib.Bytes
import Nachos.Lib.Command
import Nachos.Lib.Ledger
import Nachos.Lib.Trap
import Nachos.Lib.Numeral
import Nachos.Lib.Bits
import Nachos.Lib.TwoRuns
import Nachos.Lib.ListScheduling
import Nachos.Lib.BoundedMap
import Nachos.Lib.Keyed
import Nachos.Lib.Linked
import Nachos.Threads.Kernel
import Nachos.Threads.Steps
import Nachos.Threads.Placement
import Nachos.Threads.Fairness
import Nachos.Threads.SemaphoreValue
import Nachos.Threads.Destroy
import Nachos.Threads.Refinement
import Nachos.Threads.Device
import Nachos.Threads.SynchConsole
import Nachos.Threads.ConsoleWrite
import Nachos.Threads.ConsoleRead
import Nachos.Threads.DataRefinement
import Nachos.Threads.STable
import Nachos.Threads.LinkedList
import Nachos.Threads.Queues
import Nachos.Userprog.SemaphoreCalls
import Nachos.Threads.History
import Nachos.Machine.Machine
import Nachos.Machine.Memory
import Nachos.Machine.Mipssim
import Nachos.Machine.NoCrash
import Nachos.Machine.Interrupt
import Nachos.Machine.InterruptQueue
import Nachos.Threads.Discipline
import Nachos.Userprog.BitMap
import Nachos.Userprog.AddrSpace
import Nachos.Userprog.Loader
import Nachos.Userprog.Confined
import Nachos.Userprog.Process
import Nachos.Userprog.ProcessSteps
import Nachos.Userprog.Memory
import Nachos.Userprog.MemoryBounds
import Nachos.Userprog.ProcessTable
import Nachos.Userprog.Ancestry
import Nachos.Userprog.Handshake
import Nachos.Userprog.Join
import Nachos.Userprog.JoinOnce
import Nachos.Userprog.History
import Nachos.Userprog.Exec
import Nachos.Userprog.ExitParent
import Nachos.Userprog.Contained
import Nachos.Userprog.Context
import Nachos.Userprog.FileCalls
import Nachos.Userprog.Descriptors
import Nachos.Userprog.Exception
import Nachos.Filesys.OpenFile
import Nachos.Filesys.SynchDisk
import Nachos.Filesys.FileBytes
import Nachos.Filesys.TwoFiles
import Nachos.Filesys.Directory
import Nachos.Filesys.SectorRequest
import Nachos.Filesys.FileSystem
import Nachos.Filesys.Mounted
import Nachos.Filesys.Consistency
import Nachos.Filesys.OpenTable
import Nachos.Filesys.DirectoryMap
import Nachos.Filesys.BitMapSet
import Nachos.Filesys.Oversized
import Nachos.Filesys.Session
import Nachos.Filesys.NamedFiles
import Nachos.Filesys.VolumeRefinement
import Nachos.Userprog.Devices
import Nachos.Userprog.UserCopy
import Nachos.Userprog.CopyBack
import Nachos.Userprog.FileTransfer
import Nachos.Machine.FlatMemory
import Nachos.Machine.LoadDelay
import Nachos.Machine.Precise
import Nachos.Machine.Architecture
import Nachos.Machine.Arithmetic
import Nachos.Machine.Flush
import Nachos.Machine.Multiply
import Nachos.Machine.Polling
import Nachos.Machine.Disk
import Nachos.Machine.Timer
import Nachos.Userprog.FileNames
import Nachos.Userprog.SemaphoreNames
import Nachos.Userprog.OpenCreate
import Nachos.Userprog.StandardDescriptors
import Nachos.Userprog.BadDescriptors
import Nachos.Userprog.Terminal
import Nachos.Userprog.ReadInt
import Nachos.Userprog.PrintInt
import Nachos.Userprog.ReadConsole
import Nachos.Userprog.ReadString
import Nachos.Userprog.ExecUpdate
import Nachos.Userprog.SelfExec
import Nachos.Userprog.UserRegisters
import Nachos.Userprog.TimeSharing
import Nachos.Bin.Coff2noff
import Nachos.Bin.Image
import Nachos.Bin.Linked
import Nachos.Network.Delivery
import Nachos.Test.HandOver
import Nachos.Test.TapSchedule
import Nachos.Threads.Switch
