import MofuOS.Usize
import MofuOS.DataStructures.HashMapFxRefinement
import MofuOS.Filesystem.FileCache
import MofuOS.Filesystem.FileCacheSteps
import MofuOS.Lib.Arena
import MofuOS.Lib.ArenaPack
import MofuOS.Filesystem.FileCacheSpace
import MofuOS.Filesystem.FileCacheLoad
import MofuOS.Filesystem.FileCacheGrow
import MofuOS.Filesystem.FileCacheLayout
import MofuOS.Filesystem.FileCacheRun
import MofuOS.Filesystem.ByteStore
import MofuOS.Filesystem.FileCacheWellPacked
import MofuOS.Filesystem.FileCacheTrace
import MofuOS.Filesystem.FileCacheSim
import MofuOS.Filesystem.FileCacheTransparent
import MofuOS.Filesystem.FileCachePreserve
import MofuOS.Filesystem.FileCacheAccount
import MofuOS.Filesystem.FileCacheEvict
import MofuOS.Filesystem.FileCacheEnsure
import MofuOS.Filesystem.FileCacheAccept
import MofuOS.Lib.LinkedChain
import MofuOS.Filesystem.Fat32.StaleHandle
import MofuOS.Lib.Steps
import MofuOS.Lib.SwapRemove
import MofuOS.Lib.Ring
import MofuOS.Events.EventRing
import MofuOS.Graphics.DoubleBuffer
import MofuOS.Rustspace.TextKept
import MofuOS.Lib.IntrusiveList
import MofuOS.Process.RequestKill
import MofuOS.Process.LostKill
import MofuOS.Process.LostWakeup
import MofuOS.Process.RunQueueConsistency
import MofuOS.Process.HomeCore
import MofuOS.Process.Starvation
import MofuOS.Process.SyscallMemory
import MofuOS.Memory.UserMem
import MofuOS.Process.ProcessMem
import MofuOS.Process.NeatLayout
import MofuOS.Memory.Allocator
import MofuOS.Graphics.WindowSystem
import MofuOS.Graphics.WindowSlots
import MofuOS.Filesystem.Fat32.Names
import MofuOS.Filesystem.Fat32.FileSize
import MofuOS.Filesystem.Fat32.OutOfSpace
import MofuOS.Filesystem.Fat32.Gaps
import MofuOS.Filesystem.Fat32.UniqueNames
import MofuOS.Filesystem.Sirius
import MofuOS.Filesystem.Fat32.Resolve
import MofuOS.Filesystem.FileCacheFlush
import MofuOS.Filesystem.CachedDriver
import MofuOS.Filesystem.Fat32.Timestamp
import MofuOS.Filesystem.Fat32.ChainEnds
import MofuOS.Filesystem.Fat32.SlotParse
import MofuOS.Filesystem.Fat32.Mount
import MofuOS.Filesystem.Fat32.DirectoryGrowth
import MofuOS.Memory.FrameAllocator
import MofuOS.Memory.MappedPages
import MofuOS.Memory.Rollback
import MofuOS.Process.AddressSpace
import MofuOS.Process.RegionMirror
import MofuOS.Process.CreateWithElf
import MofuOS.Process.ElfContents
import MofuOS.Process.ElfHeaders
import MofuOS.Memory.FreshPages
import MofuOS.Memory.HeldFrames
import MofuOS.Process.AllOrNothing
import MofuOS.Events.HostilePage
import MofuOS.Process.Sleep
import MofuOS.Graphics.Compose
import MofuOS.Memory.Bump
import MofuOS.Process.ProcessTree
import MofuOS.Process.WaiterArrays
import MofuOS.Memory.HeapBlocks
import MofuOS.Process.RegionClasses
import MofuOS.Process.FreeGap
import MofuOS.Process.Reservations
import MofuOS.DataStructures.CircularBuffer
import MofuOS.Rustspace.ScrollbackReads
import MofuOS.Lib.Carving
import MofuOS.Rustspace.Heap
import MofuOS.Rustspace.BlocksPlaced
import MofuOS.Rustspace.HeapRuns
import MofuOS.Process.QueueRefinement
import MofuOS.Graphics.WindowAddresses
import MofuOS.Lib.Slots
import MofuOS.Events.KeyboardState
import MofuOS.Graphics.Focus
import MofuOS.Graphics.FocusSpec
import MofuOS.Graphics.FocusSteps
import MofuOS.Graphics.HitTest
import MofuOS.Graphics.FocusVisible
import MofuOS.Graphics.FocusKeyboard
import MofuOS.Lib.Ranks
import MofuOS.Graphics.Stacking
import MofuOS.Graphics.FocusOnTop
import MofuOS.Graphics.Drawable
import MofuOS.Graphics.Clicks
import MofuOS.Graphics.EventFrames
import MofuOS.Filesystem.Fat32.Allocation
import MofuOS.Filesystem.Fat32.SlotWrite
import MofuOS.Filesystem.Fat32.DeleteFrame
import MofuOS.Filesystem.Fat32.Leaks
import MofuOS.Filesystem.Fat32.FileStore
import MofuOS.DataStructures.DequeueList
import MofuOS.DataStructures.Vector
import MofuOS.Lib.Ledger
import MofuOS.DataStructures.Ownership
import MofuOS.Process.Resume
import MofuOS.Util.IrqMutex
import MofuOS.Memory.GuardPages
import MofuOS.Memory.Isolation
import MofuOS.Memory.SpaceRuns
