import Sdssd.Framework.Steps
import Sdssd.Framework.Log
import Sdssd.Framework.Refinement
import Sdssd.Framework.Counting
import Sdssd.Framework.Overwrite
import Sdssd.Framework.Ranking
import Sdssd.Framework.BitField
import Sdssd.Framework.ListFamily
import Sdssd.Framework.IndexQueue
import Sdssd.Framework.QueueArray
import Sdssd.Framework.PointerChain
import Sdssd.Framework.OptionalParts
import Sdssd.Framework.PointerTree
import Sdssd.Framework.TreeRotation
import Sdssd.Framework.Walk
import Sdssd.Framework.Ring
import Sdssd.Framework.Reorder
import Sdssd.Framework.Segments
import Sdssd.Framework.Bitmap
import Sdssd.Host.Geometry
import Sdssd.Host.SysMeta
import Sdssd.Host.L2pTable
import Sdssd.Host.WriteCache
import Sdssd.Host.Allocation
import Sdssd.Host.Allotment
import Sdssd.Host.ModuleInit
import Sdssd.Host.CacheAlloc
import Sdssd.Host.Frontier
import Sdssd.Host.PageOrder
import Sdssd.Host.WritePath
import Sdssd.Host.Conservation
import Sdssd.Host.Ownership
import Sdssd.Host.AllocSpec
import Sdssd.Host.AllocFailure
import Sdssd.Host.WriteBio
import Sdssd.Host.Schedules
import Sdssd.Host.Content
import Sdssd.Host.Mapping
import Sdssd.Host.LastWriter
import Sdssd.Host.ProgramOrder
import Sdssd.Host.WriterSleep
import Sdssd.Host.Requeue
import Sdssd.Host.LineCompletion
import Sdssd.Host.LineSubmission
import Sdssd.Host.DummyLun
import Sdssd.Host.ResumeLun
import Sdssd.Host.SystblFlush
import Sdssd.Host.BioOwner
import Sdssd.Host.BootBlock
import Sdssd.Host.BootLog
import Sdssd.Host.BootMirror
import Sdssd.Host.PowerCycle
import Sdssd.Host.SafeShutdown
import Sdssd.Host.BbtDiscovery
import Sdssd.Host.BbtBarrier
import Sdssd.Host.FreePool
import Sdssd.Host.FifoQueues
import Sdssd.Host.UserIoctl
import Sdssd.Host.UserPassthrough
import Sdssd.Fw.Datapath
import Sdssd.Fw.CommandFlow
import Sdssd.Fw.Dispatch
import Sdssd.Fw.Deferred
import Sdssd.Fw.IoAdmission
import Sdssd.Fw.InternalTag
import Sdssd.Fw.Dma
import Sdssd.Fw.Admin
import Sdssd.Fw.ChunkedDma
import Sdssd.Fw.TagReuse
import Sdssd.Fw.Queue
import Sdssd.Fw.RblockList
import Sdssd.Fw.WdmaMessage
import Sdssd.Fw.PrpSplit
import Sdssd.Fw.RbTree
import Sdssd.Fw.RbRotate
import Sdssd.Fw.Scheduler
import Sdssd.Fw.Geometry
import Sdssd.Fw.PageType
import Sdssd.Fw.GoodDies
import Sdssd.Fw.Recalibration
import Sdssd.Fw.PageLookup
import Sdssd.Fw.AssignPpa
import Sdssd.Fw.LogPageStep
import Sdssd.Fw.Checkpoint
import Sdssd.Pblk.WriteBuffer
import Sdssd.Pblk.Lines
import Sdssd.Pblk.Translation
import Sdssd.Pblk.RateLimiter
import Sdssd.Pblk.WritePath
import Sdssd.Pblk.RingLoops
import Sdssd.Pblk.BufferOrder
import Sdssd.Pblk.BufferRun
import Sdssd.Pblk.BufferSafety
import Sdssd.Pblk.Flush
import Sdssd.Pblk.RateBudget
import Sdssd.Pblk.Coherence
import Sdssd.Pblk.CoherenceSteps
import Sdssd.Pblk.ReadPath
import Sdssd.Pblk.ReadBack
import Sdssd.Pblk.Collect
import Sdssd.Pblk.LiveSectors
import Sdssd.Pblk.ValidCount
import Sdssd.Pblk.LineSetup
import Sdssd.Pblk.LineMeta
