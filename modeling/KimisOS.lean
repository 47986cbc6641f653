import KimisOS.Core.Run
import KimisOS.Core.Walk
import KimisOS.Core.Entries
import KimisOS.Core.ByteStore
import KimisOS.Storage.Partition
import KimisOS.Storage.PartitionTable
import KimisOS.Storage.Prdt
import KimisOS.Fat32.Cache
import KimisOS.Fat32.WriteBack
import KimisOS.Fat32.Chains
import KimisOS.Fat32.Names
import KimisOS.Fat32.Resolve
import KimisOS.Fat32.Tree
import KimisOS.Fat32.Create
import KimisOS.Fat32.EntryHead
import KimisOS.Fat32.TwoHandles
import KimisOS.Fat32.Lookups
import KimisOS.Fat32.ReadBytes
import KimisOS.Fat32.Session
import KimisOS.Fat32.Offset
import KimisOS.Bootloader.ReadFile
import KimisOS.Bootloader.EndOfChain
import KimisOS.Bootloader.FatEntries
import KimisOS.Bootloader.KernelImage
import KimisOS.Bootloader.LoadElf
import KimisOS.Bootloader.PartTwo
import KimisOS.Text.Numbers
import KimisOS.Fat32.Write
import KimisOS.Fat32.Flat
import KimisOS.Fat32.Phases
import KimisOS.Fat32.Loop
import KimisOS.Fat32.Dirent
import KimisOS.Fat32.Ends
import KimisOS.Fat32.Integrity
import KimisOS.Fat32.BlockSize
import KimisOS.Fat32.Read
import KimisOS.Fat32.WriteRead
import KimisOS.Fat32.QuietRead
import KimisOS.Tools.Diskwrite
import KimisOS.Tools.WriteFile
import KimisOS.Tools.RootEntry
import KimisOS.Tools.ReadBack
import KimisOS.Modules.Dispatch
import KimisOS.Modules.Keys
import KimisOS.Memory.HeapMap
import KimisOS.Memory.Frames
import KimisOS.Memory.FirstFree
import KimisOS.Memory.Paging
import KimisOS.Memory.Kmalloc
import KimisOS.Scheduler.Queue
import KimisOS.Scheduler.RunQueue
import KimisOS.Scheduler.Join
import KimisOS.Memory.Kill
import KimisOS.Memory.Fork
import KimisOS.Memory.KernelHalf
import KimisOS.Storage.Ata
import KimisOS.Vfs.Ramfs
import KimisOS.Vfs.Lookup
import KimisOS.Vfs.Refcount
import KimisOS.Vfs.Creation
import KimisOS.Vfs.Siblings
import KimisOS.Vfs.Pci
import KimisOS.Vfs.Uniqueness
import KimisOS.Storage.DiskTable
import KimisOS.Fat32.MountTable
import KimisOS.Scheduler.Lock
import KimisOS.Fat32.Counts
import KimisOS.Fat32.Addressing
import KimisOS.Fat32.EntryWriteback
import KimisOS.Fat32.GapFill
import KimisOS.Modules.GrowingVector
import KimisOS.Storage.DiskTransfer
import KimisOS.Fat32.Accessed
import KimisOS.Fat32.CreateFailure
import KimisOS.Fat32.ExtendDirectory
import KimisOS.Memory.Kfree
import KimisOS.Memory.Release
import KimisOS.Memory.AlignedGroup
import KimisOS.Fat32.ShortNames
import KimisOS.Fat32.LongNames
import KimisOS.Fat32.Usable
import KimisOS.Fat32.OpenTable
import KimisOS.Fat32.FreeSearch
import KimisOS.Fat32.DirentBuffer
import KimisOS.Fat32.SearchBounds
import KimisOS.Fat32.AttributeBits
import KimisOS.Core.Descent
import KimisOS.Vfs.Descends
import KimisOS.Fat32.Descends
import KimisOS.Fat32.Reopen
import KimisOS.Fat32.Durability
import KimisOS.Memory.HeapBlocks
import KimisOS.Memory.MemoryMap
import KimisOS.Scheduler.FullTable
import KimisOS.Memory.Exhaustion
import KimisOS.Memory.SearchRange
import KimisOS.Memory.Effects
import KimisOS.Memory.PageBlocks
import KimisOS.Memory.Translation
import KimisOS.Memory.FrameWindow
import KimisOS.Memory.DeepCopy
import KimisOS.Memory.StackWindow
import KimisOS.Memory.Leftover
import KimisOS.Scheduler.RoundRobin
import KimisOS.Vfs.Mounts
import KimisOS.Vfs.Slashes
import KimisOS.Vfs.DirectoryReads
import KimisOS.Vfs.LastWriter
import KimisOS.Vfs.DirectoryGrowth
import KimisOS.Vfs.FailedCreate
import KimisOS.Vfs.NameFields
import KimisOS.Memory.Exec
import KimisOS.Bootloader.KernelImage
import KimisOS.Bootloader.LoadElf
import KimisOS.Bootloader.PartTwo
import KimisOS.Loader.DynamicImage
import KimisOS.Vfs.Initrd
import KimisOS.Text.Print
import KimisOS.Text.Initrc
import KimisOS.Loader.StaticImage
import KimisOS.Bootloader.KernelAddress
import KimisOS.Tools.ChainWrites
import KimisOS.Tools.ExistingFiles
import KimisOS.Fat32.CreateFinds
import KimisOS.Core.Words
import KimisOS.Core.Scatter
import KimisOS.Storage.BusMaster
import KimisOS.Scheduler.ContextSwitch
import KimisOS.Core.Windows
import KimisOS.Storage.PartitionStack
import KimisOS.Tools.FirstFit
import KimisOS.Bootloader.OpenFile
import KimisOS.Bootloader.WrittenFiles
import KimisOS.Text.Script
import KimisOS.Vfs.StartUp
import KimisOS.Fat32.CreateStores
