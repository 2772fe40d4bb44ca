import ShardedDescent.Average
import ShardedDescent.Checkpoint.Basic
import ShardedDescent.Checkpoint.Load
import ShardedDescent.Checkpoint.Save
import ShardedDescent.Collective
import ShardedDescent.Container.File
import ShardedDescent.Container.Header
import ShardedDescent.Container.Item
import ShardedDescent.Device
import ShardedDescent.Directory.Basic
import ShardedDescent.Directory.Location
import ShardedDescent.Fault
import ShardedDescent.Gradient
import ShardedDescent.Group
import ShardedDescent.Json.Number
import ShardedDescent.Json.Skip
import ShardedDescent.Json.Text
import ShardedDescent.Json.Value
import ShardedDescent.Memory.Arena
import ShardedDescent.Memory.Regime
import ShardedDescent.Memory.Shadow
import ShardedDescent.Number.Bytes
import ShardedDescent.Number.Format
import ShardedDescent.Number.Layout
import ShardedDescent.Number.Natural
import ShardedDescent.Number.Precision
import ShardedDescent.Number.Product
import ShardedDescent.Number.Shortest
import ShardedDescent.Optimizer.Basic
import ShardedDescent.Optimizer.Build
import ShardedDescent.Optimizer.Lifecycle
import ShardedDescent.Optimizer.Update
import ShardedDescent.Outcome
import ShardedDescent.Partition
import ShardedDescent.Proofs.Addressing
import ShardedDescent.Proofs.Allocation
import ShardedDescent.Proofs.ArenaAccounts
import ShardedDescent.Proofs.Arithmetic
import ShardedDescent.Proofs.AtomicSaves
import ShardedDescent.Proofs.Averaging
import ShardedDescent.Proofs.BiasCorrection
import ShardedDescent.Proofs.Casting
import ShardedDescent.Proofs.Clipping
import ShardedDescent.Proofs.Collecting
import ShardedDescent.Proofs.Comparison
import ShardedDescent.Proofs.Concatenation
import ShardedDescent.Proofs.Configuration
import ShardedDescent.Proofs.Delivery
import ShardedDescent.Proofs.Distribution
import ShardedDescent.Proofs.ExactAdam
import ShardedDescent.Proofs.Exhaustion
import ShardedDescent.Proofs.Frames
import ShardedDescent.Proofs.Gathering
import ShardedDescent.Proofs.GroupUpdate
import ShardedDescent.Proofs.Growth
import ShardedDescent.Proofs.Ideal
import ShardedDescent.Proofs.Interchange
import ShardedDescent.Proofs.InterruptedLoads
import ShardedDescent.Proofs.ItemCodec
import ShardedDescent.Proofs.Layouts
import ShardedDescent.Proofs.Ledger
import ShardedDescent.Proofs.Leftovers
import ShardedDescent.Proofs.Loading
import ShardedDescent.Proofs.Magnitudes
import ShardedDescent.Proofs.MixedPrecision
import ShardedDescent.Proofs.MomentLengths
import ShardedDescent.Proofs.Narrowing
import ShardedDescent.Proofs.Observation
import ShardedDescent.Proofs.Operations
import ShardedDescent.Proofs.Parts
import ShardedDescent.Proofs.Patterns
import ShardedDescent.Proofs.Persistence
import ShardedDescent.Proofs.Products
import ShardedDescent.Proofs.ReadHeader
import ShardedDescent.Proofs.ReadTokens
import ShardedDescent.Proofs.Recounting
import ShardedDescent.Proofs.ReferenceSizes
import ShardedDescent.Proofs.RefusedUpdates
import ShardedDescent.Proofs.Replacement
import ShardedDescent.Proofs.Representation
import ShardedDescent.Proofs.Reservations
import ShardedDescent.Proofs.Restarting
import ShardedDescent.Proofs.Restoration
import ShardedDescent.Proofs.Restoring
import ShardedDescent.Proofs.Resumption
import ShardedDescent.Proofs.Retrying
import ShardedDescent.Proofs.RoundTrip
import ShardedDescent.Proofs.Rounding
import ShardedDescent.Proofs.RuleRefinement
import ShardedDescent.Proofs.Runs
import ShardedDescent.Proofs.SavedAverages
import ShardedDescent.Proofs.Saving
import ShardedDescent.Proofs.Schedules
import ShardedDescent.Proofs.SettingsText
import ShardedDescent.Proofs.Shapes
import ShardedDescent.Proofs.ShardCounts
import ShardedDescent.Proofs.Sharding
import ShardedDescent.Proofs.Singles
import ShardedDescent.Proofs.SkippedValues
import ShardedDescent.Proofs.Soundness
import ShardedDescent.Proofs.StoredFiles
import ShardedDescent.Proofs.StoredItems
import ShardedDescent.Proofs.Takeover
import ShardedDescent.Proofs.Training
import ShardedDescent.Proofs.TypeFaults
import ShardedDescent.Proofs.Unpacking
import ShardedDescent.Proofs.UntouchedParameters
import ShardedDescent.Proofs.UpdateFrame
import ShardedDescent.Proofs.UpdateRefinement
import ShardedDescent.Proofs.Walks
import ShardedDescent.Proofs.WrittenHeader
import ShardedDescent.Proofs.WrittenText
import ShardedDescent.Proofs.WrittenValues
import ShardedDescent.Rule.Adagrad
import ShardedDescent.Rule.Adam
import ShardedDescent.Rule.Basic
import ShardedDescent.Rule.Descent
import ShardedDescent.Rule.Epsilon
import ShardedDescent.Settings.Basic
import ShardedDescent.Settings.Reader
import ShardedDescent.Settings.Writer
import ShardedDescent.Sorting
import ShardedDescent.Tensor.Basic
import ShardedDescent.Tensor.ElementType
import ShardedDescent.Tensor.Elements
