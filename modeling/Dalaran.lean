import Dalaran.Chunk.Caches
import Dalaran.Chunk.EventCounts
import Dalaran.Chunk.AutoRowIds
import Dalaran.Chunk.Merging
import Dalaran.Store.Splitting
import Dalaran.Dlr.StoreEnumeration
import Dalaran.Batcher.Flush
import Dalaran.Query.Reset
import Dalaran.Path.LastRule
import Dalaran.Pushdown.Contradiction
import Dalaran.Quota.Delivery
import Dalaran.Budget.Accounting
import Dalaran.Budget.Slots
import Dalaran.Budget.Wakes
import Dalaran.Tf.Cycles
import Dalaran.Selector.Documented
import Dalaran.Selector.RoundTrip
import Dalaran.Store.Releasing
import Dalaran.Store.DroppedRows
import Dalaran.Store.SplitThickThin
import Dalaran.Path.Evaluate
import Dalaran.Path.PathFilters
import Dalaran.Path.LabelClashes
import Dalaran.Query.RangeCoherence
import Dalaran.Store.FurthestFrom
import Dalaran.Rvl.Totality
import Dalaran.Store.TimeNeighbors
import Dalaran.Batcher.UnsortedBound
import Dalaran.Pushdown.SegmentIds
import Dalaran.Pushdown.Widening
import Dalaran.Tf.FromTo
import Dalaran.Video.PresentationTime
import Dalaran.Manifest.CollapsedTimeRanges
import Dalaran.Manifest.MergedCoverage
import Dalaran.Manifest.SortedRangeMap
import Dalaran.Manifest.SubtreeChunks
import Dalaran.Video.AnnexB
import Dalaran.Proxy.MessageProxy
