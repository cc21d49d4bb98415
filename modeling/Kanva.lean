import Kanva.Common
import Kanva.ExponentialSearch
import Kanva.GreedySplit
import Kanva.Impl.Bin.Bounds
import Kanva.Impl.Bin.Calls
import Kanva.Impl.Bin.Checked
import Kanva.Impl.Bin.Contents
import Kanva.Impl.Bin.Counting
import Kanva.Impl.Bin.Filled
import Kanva.Impl.Bin.Gathering
import Kanva.Impl.Bin.Helping
import Kanva.Impl.Bin.Machine
import Kanva.Impl.Bin.Node
import Kanva.Impl.Bin.Pairs
import Kanva.Impl.Bin.Refinement
import Kanva.Impl.Bin.Removal
import Kanva.Impl.Bin.RemoveStatus
import Kanva.Impl.Bin.Retention
import Kanva.Impl.Bin.Searching
import Kanva.Impl.Bin.Sequential
import Kanva.Impl.Bin.Splitting
import Kanva.Impl.Bin.Strict
import Kanva.Impl.LinkedList.Collecting
import Kanva.Impl.LinkedList.Exclusive
import Kanva.Impl.LinkedList.Freezing
import Kanva.Impl.LinkedList.Insertion
import Kanva.Impl.LinkedList.Invariant
import Kanva.Impl.LinkedList.Machine
import Kanva.Impl.LinkedList.Removal
import Kanva.Impl.LinkedList.Safety
import Kanva.Impl.LinkedList.Seeking
import Kanva.Impl.LinkedList.Sequential
import Kanva.Impl.Model.Fidelity
import Kanva.Impl.Model.FindModel
import Kanva.Impl.Model.Locate
import Kanva.Impl.Model.Operations
import Kanva.Impl.Model.Partition
import Kanva.Impl.Model.Presence
import Kanva.Impl.Model.Reporting
import Kanva.Impl.Model.Retrained
import Kanva.Impl.Model.Routes
import Kanva.Impl.Model.Shrinking
import Kanva.Impl.Model.Training
import Kanva.Impl.Slot.Absence
import Kanva.Impl.Slot.Finding
import Kanva.Impl.Slot.Machine
import Kanva.Impl.Slot.Removal
import Kanva.Impl.Slot.Retention
import Kanva.Impl.Slot.Tombstone
import Kanva.InOrder
import Kanva.Interleaving
import Kanva.LeastSquares
import Kanva.PointerChain
import Kanva.RS.Model.Effects
import Kanva.RS.Model.Gather
import Kanva.RS.Model.Lookup
import Kanva.RS.Model.Operations
import Kanva.RS.Model.Retrain
import Kanva.RS.Model.Scan
import Kanva.RS.Model.Search
import Kanva.RS.Model.Status
import Kanva.RS.Model.TrainedData
import Kanva.RS.Model.TrainedLookup
import Kanva.RS.Model.Training
import Kanva.RS.Model.Updates
import Kanva.RS.Model.WalkOrder
import Kanva.RS.PiecewiseLinear.Hull
import Kanva.RS.PiecewiseLinear.Invariant
import Kanva.RS.PiecewiseLinear.Lines
import Kanva.RS.PiecewiseLinear.Model
import Kanva.RS.PiecewiseLinear.Segmentation
import Kanva.RS.Slot.Invariant
import Kanva.RS.Slot.Machine
import Kanva.RS.Slot.Reclaim
import Kanva.RS.Slot.Retraining
import Kanva.RS.Slot.Safety
import Kanva.RS.Slot.Steps
import Kanva.RS.VersionTracker.Invariant
import Kanva.RS.VersionTracker.Machine
import Kanva.RS.VersionTracker.Safety
import Kanva.RS.VersionTracker.Watermark
import Kanva.RS.VersionedArray.Invariant
import Kanva.RS.VersionedArray.Machine
import Kanva.RS.VersionedArray.Snapshot
import Kanva.Regression.MaxError
import Kanva.Regression.Train
import Kanva.SortedArray
import Kanva.SortedAssoc
import Kanva.StabbingLine
import Kanva.TaggedPtr
import Kanva.Util
