import EdgeOS.Lib.Runs
import EdgeOS.Lib.Counting
import EdgeOS.Lib.IntrusiveList
import EdgeOS.Lib.Forest
import EdgeOS.Lib.RingBuffer
import EdgeOS.Lib.Blocking
import EdgeOS.Lib.SlotTable
import EdgeOS.Task
import EdgeOS.Scheduler
import EdgeOS.RunQueue
import EdgeOS.RunQueueInvariant
import EdgeOS.RoundRobin
import EdgeOS.SchedulerFrame
import EdgeOS.UserCopy
import EdgeOS.AddressSpace
import EdgeOS.Process
import EdgeOS.ForkImage
import EdgeOS.ProcessTree
import EdgeOS.ProcessTreeInvariant
import EdgeOS.ProcessLifecycle
import EdgeOS.ProcessSystem
import EdgeOS.WaitWakeup
import EdgeOS.TaskLife
import EdgeOS.ExitStatus
import EdgeOS.GroupKill
import EdgeOS.NoLostWakeup
import EdgeOS.KernelObjects
import EdgeOS.Descriptors
import EdgeOS.DescriptorCalls
import EdgeOS.SocketRefs
import EdgeOS.ObjectRefs
import EdgeOS.DescriptorInvariant
import EdgeOS.DescriptorOps
import EdgeOS.DescriptorSteps
import EdgeOS.OpenSteps
import EdgeOS.SocketSteps
import EdgeOS.PathSteps
import EdgeOS.DescriptorSystem
import EdgeOS.ReferenceConservation
import EdgeOS.DescriptorFrame
import EdgeOS.CallFrames
import EdgeOS.OpenDescriptors
import EdgeOS.PipeTransfer
import EdgeOS.PipeSystem
import EdgeOS.ProcessDescriptors
import EdgeOS.FileWrite
import EdgeOS.WriteAccess
import EdgeOS.FileRead
import EdgeOS.SharedPosition
import EdgeOS.Terminal
import EdgeOS.LineEditing
import EdgeOS.TerminalSystem
import EdgeOS.SocketTransfer
import EdgeOS.TcpReceive
import EdgeOS.UnixStream
import EdgeOS.MemoryMap
import EdgeOS.MappingSafety
import EdgeOS.DescriptorMap
import EdgeOS.CallMeanings
import EdgeOS.BootTime
import EdgeOS.DescriptorNumbers
import EdgeOS.Ext4
import EdgeOS.Filesystems
import EdgeOS.PathResolve
import EdgeOS.PathWalk
import EdgeOS.PathCalls
import EdgeOS.SearchPermission
import EdgeOS.SpecialTransfer
import EdgeOS.InetSend
import EdgeOS.FdTransfer
import EdgeOS.FailedReads
import EdgeOS.FailedWrites
import EdgeOS.FailedTransfers
import EdgeOS.Poll
import EdgeOS.MountTable
import EdgeOS.FailedOpens
import EdgeOS.FailedMounts
import EdgeOS.DirImage
import EdgeOS.DirListing
import EdgeOS.DirectoryWalk
import EdgeOS.Lib.Traced
import EdgeOS.ElfLoader
import EdgeOS.StoredBytes
import EdgeOS.InitialStack
import EdgeOS.ElfConfinement
import EdgeOS.Buffer
import EdgeOS.MountedExt4
import EdgeOS.Disk
import EdgeOS.TcpSend
import EdgeOS.Lib.Sessions
import EdgeOS.TaskIds
import EdgeOS.JobControl
import EdgeOS.Credentials
import EdgeOS.ProcessCalls
import EdgeOS.FailedProcessCalls
import EdgeOS.ProcessRuns
import EdgeOS.ConsoleHold
import EdgeOS.Lib.SlotTable
import EdgeOS.EpollWatches
import EdgeOS.EpollRuns
import EdgeOS.NetworkEntry
import EdgeOS.SocketNames
import EdgeOS.LocalPorts
import EdgeOS.ReceiveRing
import EdgeOS.Lib.Search
import EdgeOS.EpollNesting
import EdgeOS.Lib.GapRing
import EdgeOS.InputQueues
import EdgeOS.Lib.Batches
import EdgeOS.BlockDevices
import EdgeOS.AhciSlots
import EdgeOS.Lib.CycleRing
import EdgeOS.XhciDriver
import EdgeOS.XhciEvents
import EdgeOS.UhciDriver
import EdgeOS.UsbResources
import EdgeOS.GettyLogin
import EdgeOS.Lib.NamedTree
import EdgeOS.FallbackRoot
import EdgeOS.Lib.Ticks
import EdgeOS.IntervalTimers
import EdgeOS.EventCounters
import EdgeOS.SignalDelivery
import EdgeOS.PollSelect
import EdgeOS.Lib.ClockWait
import EdgeOS.TimedWaits
import EdgeOS.PathNormal
import EdgeOS.PathBuffers
import EdgeOS.FailedMappings
import EdgeOS.LoadedImage
import EdgeOS.ProgramArguments
import EdgeOS.IcmpQueues
import EdgeOS.TransmitRing
import EdgeOS.ExtentInsertion
import EdgeOS.BootMouse
import EdgeOS.ConsoleLines
import EdgeOS.BlockMappedFiles
import EdgeOS.GapSearch
import EdgeOS.AhciTransfers
import EdgeOS.ConfigDescriptors
import EdgeOS.ResolvConf
import EdgeOS.CommandChains
import EdgeOS.TransferRings
import EdgeOS.ProcTexts
import EdgeOS.FbConsole
import EdgeOS.ConsoleEscapes
import EdgeOS.LineEditors
import EdgeOS.RangeRemoval
import EdgeOS.SectorTransfers
import EdgeOS.MemoryMoves
import EdgeOS.BitmapAllocation
import EdgeOS.RealTimeClock
