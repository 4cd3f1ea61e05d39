import Mozi.Foundation.Amd64
import Mozi.Foundation.BitArray
import Mozi.Foundation.Blocks
import Mozi.Foundation.ByteMemory
import Mozi.Foundation.ByteOrder
import Mozi.Foundation.Cdr
import Mozi.Foundation.Channel
import Mozi.Foundation.Digits
import Mozi.Foundation.Extractions
import Mozi.Foundation.Heap
import Mozi.Foundation.HexExtractions
import Mozi.Foundation.InputStream
import Mozi.Foundation.Integers
import Mozi.Foundation.Lifetimes
import Mozi.Foundation.Lockstep
import Mozi.Foundation.Loop
import Mozi.Foundation.Machine
import Mozi.Foundation.Memcmp
import Mozi.Foundation.Numerals
import Mozi.Foundation.Owners
import Mozi.Foundation.RemoveIf
import Mozi.Foundation.Slicing
import Mozi.Foundation.Terminated
import Mozi.Foundation.ThrowingStream
import Mozi.Foundation.UInt32
import Mozi.Foundation.Window
import Mozi.DataStructure.BitmapAddRange
import Mozi.DataStructure.BitmapMoveDown
import Mozi.DataStructure.BitmapMoveUp
import Mozi.DataStructure.BitmapMutators
import Mozi.DataStructure.BitmapRefinement
import Mozi.DataStructure.BitmapRemove
import Mozi.DataStructure.BitmapRuns
import Mozi.DataStructure.BitmapShiftRight
import Mozi.DataStructure.BitmapTransfer
import Mozi.DataStructure.BitmapWindow
import Mozi.DataStructure.BitmapWords
import Mozi.DataStructure.DoubleBufferedQueue
import Mozi.DataStructure.FixedSizeBitmap
import Mozi.DataStructure.SequenceNumber
import Mozi.DataStructure.SequenceNumberArithmetic
import Mozi.DataStructure.SequenceNumberSet
import Mozi.DataStructure.SequenceNumberText
import Mozi.Log.Buffers
import Mozi.Log.ClearConsumers
import Mozi.Log.Consumers
import Mozi.Log.Delivery
import Mozi.Log.Flush
import Mozi.Log.KillThread
import Mozi.Log.Logger
import Mozi.Log.Step
import Mozi.Log.WakeUp
import Mozi.Coroutine.BodyEntry
import Mozi.Coroutine.Ending
import Mozi.Coroutine.Events
import Mozi.Coroutine.Isolation
import Mozi.Coroutine.Memcpy
import Mozi.Coroutine.MemcpyCases
import Mozi.Coroutine.MzCoroutine
import Mozi.Coroutine.Mzco
import Mozi.Coroutine.Mzswap
import Mozi.Coroutine.Notification
import Mozi.Coroutine.Objects
import Mozi.Coroutine.ShareStackNew
import Mozi.Coroutine.StackBounds
import Mozi.Coroutine.Switching
import Mozi.Coroutine.Transparency
import Mozi.Rtps.Common.FragmentNumber
import Mozi.Rtps.Common.Guid
import Mozi.Rtps.Common.GuidBlocks
import Mozi.Rtps.Common.GuidOrder
import Mozi.Rtps.Common.GuidText
import Mozi.Rtps.Common.NumberSets
import Mozi.Rtps.Common.Property
import Mozi.Rtps.Common.Removal
import Mozi.Rtps.Locator.Accessors
import Mozi.Rtps.Locator.IPLocator
import Mozi.Rtps.Locator.IPv4
import Mozi.Rtps.Locator.IPv4Acceptance
import Mozi.Rtps.Locator.IPv6Acceptance
import Mozi.Rtps.Locator.IPv6Chains
import Mozi.Rtps.Locator.IPv6Extraction
import Mozi.Rtps.Locator.IPv6Parser
import Mozi.Rtps.Locator.IPv6Printing
import Mozi.Rtps.Locator.IPv6RoundTrip
import Mozi.Rtps.Locator.IPv6Text
import Mozi.Rtps.Locator.IPv6Zones
import Mozi.Rtps.Locator.Ports
import Mozi.Rtps.Locator.Rejection
import Mozi.Rtps.Locator.Setters
import Mozi.Rtps.Locator.Slices
import Mozi.Rtps.Locator.TCPv4Address
import Mozi.Rtps.Locator.Wan
import Mozi.Rtps.Storage.CacheChange
import Mozi.Rtps.Storage.ChangeCopy
import Mozi.Rtps.Storage.CopyContinues
import Mozi.Rtps.Storage.EndsAtOnce
import Mozi.Rtps.Storage.FirstLink
import Mozi.Rtps.Storage.FragmentRange
import Mozi.Rtps.Storage.Fuel
import Mozi.Rtps.Storage.History
import Mozi.Rtps.Storage.HistoryCursor
import Mozi.Rtps.Storage.HistoryLookup
import Mozi.Rtps.Storage.HistoryRemoval
import Mozi.Rtps.Storage.LinkSlots
import Mozi.Rtps.Storage.Links
import Mozi.Rtps.Storage.ManyFragments
import Mozi.Rtps.Storage.MissingFragments
import Mozi.Rtps.Storage.MissingReport
import Mozi.Rtps.Storage.PayloadBuffer
import Mozi.Rtps.Storage.PayloadOwnership
import Mozi.Rtps.Storage.Reassembly
import Mozi.Rtps.Storage.SingleFragment
import Mozi.Rtps.Storage.Sizes
import Mozi.Rtps.Storage.SmallLists
import Mozi.Rtps.Storage.Termination
import Mozi.Rtps.Storage.Twins
import Mozi.Internal.ObjectPool
import Mozi.Internal.PoolBookkeeping
import Mozi.Internal.PoolIterator
import Mozi.Internal.PoolLifetimes
import Mozi.Internal.PoolSlots
import Mozi.Internal.PoolSteps
import Mozi.Math.ConvexHull
import Mozi.Math.HullCopies
import Mozi.Time.ExactRuns
import Mozi.Time.Time
import Mozi.Utils.HostId
import Mozi.Utils.Semaphore
import Mozi.Utils.SemaphoreWakeups
