import Neonix.Runs
import Neonix.Allocators
import Neonix.ProcessTree
import Neonix.DiedTerminal
import Neonix.BufferDirty
import Neonix.Memory
import Neonix.PageRefs
import Neonix.PageSteps
import Neonix.PageCalls
import Neonix.MappingCalls
import Neonix.DirectoryCalls
import Neonix.PageCounts
import Neonix.CopyOnWrite
import Neonix.BufferTable
import Neonix.SequentialCache
import Neonix.RequestQueue
import Neonix.TimedWaits
import Neonix.Words
import Neonix.Calls
import Neonix.FileSystem
import Neonix.Namei
import Neonix.Files
import Neonix.Frames
import Neonix.InodeRefs
import Neonix.PathRefs
import Neonix.DescriptorRefs
import Neonix.ReferenceCounts
import Neonix.Components
import Neonix.Directories
import Neonix.Resolver
import Neonix.Walks
import Neonix.PathResolution
import Neonix.Umount
import Neonix.Mounts
import Neonix.SuperTable
import Neonix.BlockTrees
import Neonix.NewEntries
import Neonix.CreatedNames
import Neonix.BlindCalls
import Neonix.NewInodes
import Neonix.Creations
import Neonix.CreationCalls
import Neonix.FailedCalls
import Neonix.Locks
import Neonix.Ring
import Neonix.Fifo
import Neonix.Pipes
import Neonix.PipeTurns
import Neonix.PipeSafety
import Neonix.DeadPipes
import Neonix.WordMemory
import Neonix.Signals
import Neonix.SignalMask
import Neonix.SignalFrames
import Neonix.Alarms
import Neonix.PageBalance
import Neonix.PageFaults
import Neonix.TaskExits
import Neonix.Console
import Neonix.ConsoleBounds
import Neonix.ConsoleParser
import Neonix.ArgumentBlock
import Neonix.ProgramStart
import Neonix.LinkedNodes
import Neonix.WaitLists
import Neonix.WaitStates
import Neonix.FormattedMaps
import Neonix.FormattedRoot
import Neonix.FormattedDevices
import Neonix.KernelPages
import Neonix.BlockDevices
import Neonix.DeviceFiles
import Neonix.FileData
import Neonix.FileOffsets
import Neonix.FailedOpens
import Neonix.BlockMaps
import Neonix.Truncations
import Neonix.FileContents
import Neonix.WriteRead
import Neonix.ZoneOrder
import Neonix.DenseFiles
import Neonix.SparseFiles
import Neonix.MemoryLists
import Neonix.Arenas
import Neonix.HeapShape
import Neonix.HeapChanges
import Neonix.HeapCalls
import Neonix.HeapFrees
import Neonix.HeapRuns
import Neonix.BitmapScans
import Neonix.WiredTables
import Neonix.Duplicates
import Neonix.DescriptorChecks
import Neonix.AccessRights
import Neonix.FreePages
import Neonix.TimerList
import Neonix.MmapArea
import Neonix.ArgumentBounds
import Neonix.DeviceTransfers
import Neonix.TransferCalls
import Neonix.UserPages
import Neonix.ElfLoader
import Neonix.FifoQueues
import Neonix.SystemTime
import Neonix.ListCalls
import Neonix.ListRuns
import Neonix.LineEditor
import Neonix.Calendar
import Neonix.Strings
import Neonix.CommandLine
import Neonix.AbsolutePaths
import Neonix.ConsoleMemory
import Neonix.Screens
import Neonix.ScreenLines
import Neonix.ScreenEdits
import Neonix.ShellPipelines
import Neonix.Numerals
import Neonix.Formats
import Neonix.FormatTexts
import Neonix.FormatTexts
import Neonix.RoundRobin
import Neonix.Scheduler
import Neonix.Starvation
import Neonix.Starvation
import Neonix.BufferRefs
import Neonix.InodeTable
import Neonix.InodeHolders
import Neonix.CharacterInput
import Neonix.Keyboard
import Neonix.KeyboardReads
import Neonix.RealTimeClock
import Neonix.Assembly
import Neonix.ContextSwitches
import Neonix.TrapFrames
import Neonix.SelfMap
