import OppoOS.ByteMemory
import OppoOS.BuddyTiling
import OppoOS.BuddySystem
import OppoOS.BuddyAllocator
import OppoOS.AllocatorRefinement
import OppoOS.AllocatorRuns
import OppoOS.AllocatorPartition
import OppoOS.AllocatorReclaim
import OppoOS.BuddyMerging
import OppoOS.FailedAllocation
import OppoOS.FreeOrder
import OppoOS.TableTree
import OppoOS.Paging
import OppoOS.PageTables
import OppoOS.PageGrants
import OppoOS.AddressSpace
import OppoOS.PageTableMap
import OppoOS.PteEncoding
import OppoOS.Processes
import OppoOS.Scheduler
import OppoOS.RoundRobin
import OppoOS.ProcessSlots
import OppoOS.Mmu
import OppoOS.ProcessSpace
import OppoOS.Loader
import OppoOS.Isolation
import OppoOS.SpaceLayout
import OppoOS.PointerTranslation
import OppoOS.OutOfMemory
import OppoOS.RingBuffer
import OppoOS.Virtqueue
import OppoOS.DescriptorChains
import OppoOS.KeyedStore
import OppoOS.DiskDriver
import OppoOS.RiscV
import OppoOS.ContextSwitch
import OppoOS.SystemCalls
import OppoOS.SavedContexts
import OppoOS.TrapInvariant
import OppoOS.TrapCoherence
import OppoOS.CStrings
import OppoOS.Shell
import OppoOS.Comparison
import OppoOS.Numerals
import OppoOS.Conversion
import OppoOS.FormatScan
import OppoOS.Printf
import OppoOS.DecimalOutput
import OppoOS.WriteLog
import OppoOS.Snprintf
import OppoOS.FormatAgreement
import OppoOS.FormatEnd
import OppoOS.MaximalRuns
import OppoOS.Tokenizer
import OppoOS.Painting
import OppoOS.Drawing
import OppoOS.BlockGrants
import OppoOS.DeviceInit
import OppoOS.KernelMemory
import OppoOS.Boot
import OppoOS.KernelRuns
import OppoOS.KernelGuarantees
import OppoOS.ForwardCopy
import OppoOS.Strings
import OppoOS.TriangleWave
import OppoOS.Animation
import OppoOS.BuddyCanonical
import OppoOS.AllocatorHistory
import OppoOS.TaggedStream
import OppoOS.Console
import OppoOS.UserCalls
import OppoOS.KernelProgress
import OppoOS.ProcessLife
