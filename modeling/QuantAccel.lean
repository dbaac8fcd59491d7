import QuantAccel.Bench.Basic
import QuantAccel.Bench.Clock
import QuantAccel.Bench.Stimulus
import QuantAccel.Bench.Tampered
import QuantAccel.CommandLine
import QuantAccel.Compile
import QuantAccel.Config.Hardware
import QuantAccel.Config.Json
import QuantAccel.Config.Simulation
import QuantAccel.Design
import QuantAccel.Directory
import QuantAccel.Error
import QuantAccel.Evaluation
import QuantAccel.Event
import QuantAccel.Graph.Basic
import QuantAccel.Graph.Construction
import QuantAccel.Graph.Edit
import QuantAccel.Graph.Order
import QuantAccel.Kernel.Fixed
import QuantAccel.Kernel.Real
import QuantAccel.Machine.Basic
import QuantAccel.Machine.Device
import QuantAccel.Machine.Emission
import QuantAccel.Machine.Registers
import QuantAccel.Machine.Tiling
import QuantAccel.Main
import QuantAccel.Memory.Allocation
import QuantAccel.Memory.BitField
import QuantAccel.Memory.Image
import QuantAccel.Memory.Packing
import QuantAccel.Memory.Plan
import QuantAccel.Number.Binary64
import QuantAccel.Number.Decimal
import QuantAccel.Number.Hex
import QuantAccel.Number.Multiplier
import QuantAccel.Number.Saturating
import QuantAccel.Number.Word
import QuantAccel.Operator
import QuantAccel.Proofs.Accumulator
import QuantAccel.Proofs.Allocation
import QuantAccel.Proofs.Axes
import QuantAccel.Proofs.Bench
import QuantAccel.Proofs.BitField
import QuantAccel.Proofs.Blob
import QuantAccel.Proofs.Builder
import QuantAccel.Proofs.Compile
import QuantAccel.Proofs.Construction
import QuantAccel.Proofs.Declaration
import QuantAccel.Proofs.Elements
import QuantAccel.Proofs.Evaluation
import QuantAccel.Proofs.Exactness
import QuantAccel.Proofs.Execution
import QuantAccel.Proofs.Failure
import QuantAccel.Proofs.Fields
import QuantAccel.Proofs.Footprint
import QuantAccel.Proofs.Guard
import QuantAccel.Proofs.Handshake
import QuantAccel.Proofs.Host
import QuantAccel.Proofs.Identifiers
import QuantAccel.Proofs.Image
import QuantAccel.Proofs.Independence
import QuantAccel.Proofs.LaneUnits
import QuantAccel.Proofs.Layouts
import QuantAccel.Proofs.MultiIndex
import QuantAccel.Proofs.Neighbours
import QuantAccel.Proofs.Offsets
import QuantAccel.Proofs.Order
import QuantAccel.Proofs.Outcome
import QuantAccel.Proofs.Overflow
import QuantAccel.Proofs.Packing
import QuantAccel.Proofs.Parameters
import QuantAccel.Proofs.Placing
import QuantAccel.Proofs.Plan
import QuantAccel.Proofs.Protection
import QuantAccel.Proofs.Protocol
import QuantAccel.Proofs.Quantization
import QuantAccel.Proofs.Ranges
import QuantAccel.Proofs.Recompilation
import QuantAccel.Proofs.Refinement
import QuantAccel.Proofs.Requantization
import QuantAccel.Proofs.Requests
import QuantAccel.Proofs.RoundTrip
import QuantAccel.Proofs.Rounding
import QuantAccel.Proofs.Rows
import QuantAccel.Proofs.Scales
import QuantAccel.Proofs.Schedule
import QuantAccel.Proofs.Search
import QuantAccel.Proofs.Simulation
import QuantAccel.Proofs.Solution
import QuantAccel.Proofs.Soundness
import QuantAccel.Proofs.Stages
import QuantAccel.Proofs.Tiling
import QuantAccel.Proofs.Timeline
import QuantAccel.Proofs.Units
import QuantAccel.Proofs.Waiting
import QuantAccel.Proofs.Widening
import QuantAccel.Proofs.WordUnits
import QuantAccel.Proofs.Words
import QuantAccel.Quantization
import QuantAccel.Random
import QuantAccel.Scenario
import QuantAccel.Schedule.Alignment
import QuantAccel.Schedule.Attributes
import QuantAccel.SimulationError
import QuantAccel.Tensor.Basic
import QuantAccel.Tensor.ElementType
import QuantAccel.Tensor.Shape
