import NetlistCompiler.Arithmetic
import NetlistCompiler.BinaryOp
import NetlistCompiler.Bindings
import NetlistCompiler.BuildError
import NetlistCompiler.Circuit
import NetlistCompiler.Circuit.Retiming
import NetlistCompiler.Command.Arguments
import NetlistCompiler.Command.Directory
import NetlistCompiler.Command.Files
import NetlistCompiler.Command.Run
import NetlistCompiler.Configuration
import NetlistCompiler.Configuration.Reader
import NetlistCompiler.DelayModel
import NetlistCompiler.Elaboration
import NetlistCompiler.Expansion
import NetlistCompiler.Expansion.Names
import NetlistCompiler.Invocation
import NetlistCompiler.Invocation.Name
import NetlistCompiler.Json
import NetlistCompiler.Json.Printer
import NetlistCompiler.Json.Reader
import NetlistCompiler.Json.Record
import NetlistCompiler.Main
import NetlistCompiler.Netlist
import NetlistCompiler.Netlist.Circuit
import NetlistCompiler.Netlist.Index
import NetlistCompiler.Netlist.Json
import NetlistCompiler.Netlist.Retiming
import NetlistCompiler.Port
import NetlistCompiler.PortKind
import NetlistCompiler.PortTree
import NetlistCompiler.Primitive
import NetlistCompiler.Primitive.Json
import NetlistCompiler.Program
import NetlistCompiler.Program.Json
import NetlistCompiler.Proofs.CombinationalDelay
import NetlistCompiler.Proofs.DistinctLists
import NetlistCompiler.Proofs.Feasibility
import NetlistCompiler.Proofs.PossiblePeriods
import NetlistCompiler.Proofs.RegisterMoves
import NetlistCompiler.Proofs.ShortestPaths
import NetlistCompiler.Proofs.TopologicalSort
import NetlistCompiler.Proofs.Walk
import NetlistCompiler.Resolution
import NetlistCompiler.Scope
import NetlistCompiler.Shape
import NetlistCompiler.Shape.Json
import NetlistCompiler.Surface
import NetlistCompiler.Surface.Json
import NetlistCompiler.Surface.Names
import NetlistCompiler.SymbolTable
import NetlistCompiler.Toml
import NetlistCompiler.Toml.Reader
import NetlistCompiler.Toml.Scalar
import NetlistCompiler.WeightedGraph
import NetlistCompiler.WeightedGraph.Dot
import NetlistCompiler.Word
import NetlistCompiler.Proofs.LeastPeriod
import NetlistCompiler.Proofs.Tracing
import NetlistCompiler.Proofs.Extraction
import NetlistCompiler.Proofs.Reconstruction
import NetlistCompiler.Proofs.RoundTrip
import NetlistCompiler.Proofs.BuiltModules
import NetlistCompiler.Proofs.Behaviour
import NetlistCompiler.Proofs.RetimedBehaviour
import NetlistCompiler.Proofs.Agreement
import NetlistCompiler.Proofs.ModuleNames
import NetlistCompiler.Proofs.ElaborationSteps
import NetlistCompiler.Proofs.Likeness
import NetlistCompiler.Proofs.ExpansionLikeness
import NetlistCompiler.Proofs.ResolvedPrograms
import NetlistCompiler.Proofs.Sessions
import NetlistCompiler.Proofs.Scoping
import NetlistCompiler.Proofs.KnownNames
import NetlistCompiler.Proofs.PortTrees
import NetlistCompiler.Proofs.ElaborationErrors
import NetlistCompiler.Proofs.AccessPaths
import NetlistCompiler.Proofs.Placement
import NetlistCompiler.Proofs.Replay
import NetlistCompiler.Proofs.ReplayedConnections
import NetlistCompiler.Proofs.ReplayedBodies
import NetlistCompiler.Proofs.ReplayedBlocks
import NetlistCompiler.Proofs.ReplayedDesigns
import NetlistCompiler.Proofs.RenumberedDesigns
import NetlistCompiler.Proofs.ReorderedPrograms
import NetlistCompiler.Proofs.CombinationalLoops
import NetlistCompiler.Proofs.RegisterSources
import NetlistCompiler.Proofs.ExpansionDepth
import NetlistCompiler.Proofs.PrimitiveModules
import NetlistCompiler.Proofs.MirroredBodies
import NetlistCompiler.Proofs.Memoization
import NetlistCompiler.Proofs.ComposedRetimings
import NetlistCompiler.Proofs.RetimedModules
import NetlistCompiler.Proofs.WidthSlices
import NetlistCompiler.Proofs.RetimedDesigns
import NetlistCompiler.Proofs.BodyLogic
import NetlistCompiler.Proofs.Handshakes
import NetlistCompiler.Proofs.InstanceHierarchy
import NetlistCompiler.Proofs.FirstOrder
import NetlistCompiler.Proofs.JsonText
import NetlistCompiler.Proofs.ProgramDocuments
import NetlistCompiler.Proofs.Joints
import NetlistCompiler.Proofs.SharedHeads
import NetlistCompiler.Proofs.EarlyConnections
import NetlistCompiler.Proofs.RegroupedChains
import NetlistCompiler.Proofs.RegroupedPrograms
import NetlistCompiler.Proofs.WireMatching
import NetlistCompiler.Proofs.ExpressionKinds
import NetlistCompiler.Proofs.RedundantParentheses
import NetlistCompiler.Proofs.AliasSubstitution
import NetlistCompiler.Proofs.IndexedWiring
import NetlistCompiler.Proofs.PrimitivePorts
import NetlistCompiler.Proofs.NodeNames
import NetlistCompiler.Proofs.RetimedNames
import NetlistCompiler.PortTree.Layout
import NetlistCompiler.Proofs.LeafNumbering
import NetlistCompiler.Proofs.AdjacencyTables
