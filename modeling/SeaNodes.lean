import SeaNodes.Asm.Table
import SeaNodes.Compile
import SeaNodes.Graph.Check
import SeaNodes.Graph.Mnemonic
import SeaNodes.Schedule.Text
import SeaNodes.Proofs.Registers.Checked
import SeaNodes.Proofs.Registers.Rewriting
import SeaNodes.Proofs.Registers.Isolation
import SeaNodes.Proofs.Registers.LegalMeaning
import SeaNodes.Proofs.Registers.PhiLowering
import SeaNodes.Proofs.Registers.Interference
import SeaNodes.Proofs.Registers.Merging
import SeaNodes.Proofs.Registers.Coloring
import SeaNodes.Proofs.Registers.Accepted
import SeaNodes.Proofs.Registers.SpillCode
import SeaNodes.Proofs.Registers.SpillRun
import SeaNodes.Proofs.Source.Meaning
import SeaNodes.Proofs.Registers.SpillRanges
import SeaNodes.Proofs.Registers.SpillMeaning
import SeaNodes.Proofs.Registers.SpillProgress
import SeaNodes.Proofs.Registers.LivePaths
import SeaNodes.Proofs.Flow.Chains
import SeaNodes.Proofs.Flow.Edges
import SeaNodes.Proofs.Schedule.Lists
import SeaNodes.Proofs.Eval.PureRun
import SeaNodes.Proofs.Eval.Settled
import SeaNodes.Proofs.Schedule.BestPlace
import SeaNodes.Proofs.Schedule.CodeMotion
import SeaNodes.Proofs.Eval.MemoryEdges
import SeaNodes.Proofs.Schedule.MemoryOrder
import SeaNodes.Proofs.Schedule.LeastOrder
import SeaNodes.Proofs.Lattice.Descent
import SeaNodes.Proofs.Lattice.Order
import SeaNodes.Proofs.Opt.Monotone
import SeaNodes.Proofs.Opt.FixedPoint
import SeaNodes.Proofs.Eval.AnalysisSound
import SeaNodes.Proofs.Eval.NullSafety
import SeaNodes.Proofs.Schedule.Returning
import SeaNodes.Proofs.Select.Accepted
import SeaNodes.Proofs.Graph.Mirrored
import SeaNodes.Proofs.Graph.Numbered
import SeaNodes.Proofs.Graph.Linked
import SeaNodes.Proofs.Graph.Filed
import SeaNodes.Proofs.Opt.Evolves
import SeaNodes.Proofs.Opt.Casts
import SeaNodes.Proofs.Opt.Idempotent
import SeaNodes.Proofs.Build.Keeps
import SeaNodes.Proofs.Build.Graphs
import SeaNodes.Proofs.Flow.Reached
import SeaNodes.Proofs.Flow.Iteration
import SeaNodes.Proofs.Code.Exact
import SeaNodes.Proofs.Eval.Operands
import SeaNodes.Proofs.Flow.Layout
import SeaNodes.Proofs.Select.SingleAssignment
import SeaNodes.Proofs.Code.Patches
import SeaNodes.Proofs.Opt.IntegersKept
import SeaNodes.Proofs.Opt.MemoryKept
import SeaNodes.Proofs.Hardware.Constants
import SeaNodes.Proofs.Hardware.Division
import SeaNodes.Proofs.Hardware.Branches
import SeaNodes.Proofs.Hardware.X64Operands
import SeaNodes.Proofs.Flow.LoopForest
import SeaNodes.Proofs.Flow.Consistent
import SeaNodes.Proofs.Hardware.Frames
import SeaNodes.Proofs.Opt.Joins
import SeaNodes.Proofs.Lattice.Bounds
import SeaNodes.Proofs.Source.Interning
import SeaNodes.Proofs.Machine.Arguments
import SeaNodes.Proofs.Opt.Chains
