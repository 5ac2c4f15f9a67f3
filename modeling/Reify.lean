import Reify.Core.Identity
import Reify.Foundation.Decimal
import Reify.Core.Float
import Reify.Core.NodeIdRoundTrip
import Reify.Eval.WarmPool
import Reify.Eval.WarmPoolAccounting
import Reify.Ir.NodeTraits
import Reify.Eval.Cache
import Reify.Eval.CacheChain
import Reify.Ir.Expr
import Reify.Eval.DepsExtraction
import Reify.Eval.DepsTranspose
import Reify.Foundation.Worklist
import Reify.Eval.Demand
import Reify.Eval.DemandClosure
import Reify.Eval.FreshnessWalk
import Reify.Eval.FreshnessRounds
import Reify.Eval.InFlight
import Reify.Foundation.Kahn
import Reify.Eval.Dirty
import Reify.Eval.CellCommit
import Reify.Eval.Edit
import Reify.Eval.CellGraph
import Reify.Eval.EarlyCutoff
import Reify.Eval.EditSound
import Reify.Eval.PruneSafety
import Reify.Eval.Cutoff
import Reify.Eval.CacheRep
import Reify.Eval.ToleranceBucket
import Reify.Eval.RealizationCache
import Reify.Compiler.Units
import Reify.Foundation.Codec
import Reify.Foundation.Bincode
import Reify.Eval.PersistentCache
import Reify.Compute.ElasticResult
import Reify.Core.Diagnostic
import Reify.Eval.DiagnosticsWire
import Reify.Eval.WithDiagnostics
import Reify.Ir.GeometryId
import Reify.ShellExtract.Wire
import Reify.ShellExtract.Result
import Reify.Constraints.Endpoint
import Reify.Constraints.Interval
import Reify.Constraints.Hc4
import Reify.Constraints.ExtendedRat
import Reify.Constraints.DependentReads
import Reify.Constraints.CpSat
import Reify.Constraints.CellFold
import Reify.Foundation.LexProduct
import Reify.Constraints.Enumeration
import Reify.Core.Ty
import Reify.Core.Overload
import Reify.Compiler.OverloadResolution
import Reify.Foundation.RoseTree
import Reify.Ir.Selector
import Reify.Ir.RuntimeValue
import Reify.Ir.ValueKey
import Reify.Ir.ValueHash
import Reify.Ir.ValueLaws
import Reify.Eval.EditOverrides
import Reify.Compiler.ImportWalk
import Reify.Compiler.ProjectOrder
import Reify.Compiler.AutoTypeParam
import Reify.Compiler.Backjumping
import Reify.Eval.RealizationCone
import Reify.Foundation.Tarjan
import Reify.Eval.UnifiedPass
import Reify.Foundation.Words
import Reify.Gcode.Parse
import Reify.Gcode.RoundTrip
import Reify.Constraints.Lowering
import Reify.Constraints.LoweringSpec
import Reify.Constraints.LoweringSound
import Reify.Eval.WarmHandover
import Reify.Eval.Unfold
import Reify.Eval.UnfoldRun
import Reify.Constraints.DepthSchedule
import Reify.Eval.DeclineToSolve
import Reify.Eval.Dispatcher
import Reify.Foundation.CycleSearch
import Reify.Compiler.RecursiveStructures
import Reify.Constraints.RankedSearch
import Reify.Constraints.IntegerDomain
import Reify.Foundation.SlotGroups
import Reify.Foundation.UnionFind
import Reify.Constraints.Decompose
import Reify.Eval.ResolveOrder
import Reify.Eval.ResolveOrderSound
import Reify.Compiler.Unify
import Reify.Foundation.StackSearch
import Reify.Runtime.PriorityPromotion
import Reify.Foundation.ColourSearch
import Reify.Ir.ProductTree
import Reify.Eval.ScopeContainment
import Reify.Eval.Phase1Walk
import Reify.Foundation.Placement
import Reify.Eval.Descendants
import Reify.Eval.StructuralQuery
import Reify.Eval.SignificanceFilter
import Reify.Core.SourceLocation
import Reify.Lsp.Convert
import Reify.Foundation.StackReach
import Reify.Eval.HashGate
import Reify.Expr.MulDiv
import Reify.Compiler.MulDivResult
import Reify.Eval.UndefTracer
import Reify.Foundation.LogIndex
import Reify.Eval.Journal
import Reify.Eval.CommitAudit
import Reify.Foundation.KeyedEdit
import Reify.Ir.ExprRewrite
import Reify.Eval.CollectionPhase
import Reify.Eval.CollectionResize
import Reify.Eval.CollectionReseed
import Reify.Eval.CollectionRuns
