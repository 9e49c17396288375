import Jadren.App.CsvRoundTrips
import Jadren.App.DurableCommit
import Jadren.Concurrency.LeastOrder
import Jadren.Concurrency.ParallelReduce
import Jadren.Concurrency.Shutdown
import Jadren.Determinism.Paths
import Jadren.Effects.WholeProgram
import Jadren.Gpu.Clients
import Jadren.Http.Heads
import Jadren.Jir.BoundReads
import Jadren.Jir.Dominators
import Jadren.Jir.FoldingExact
import Jadren.Jir.HalfFloat
import Jadren.Jir.Indexing
import Jadren.Jir.Inlining
import Jadren.Jir.Offsets
import Jadren.Jir.ProvenChecks
import Jadren.Jir.Simplification
import Jadren.Jir.TagPaths
import Jadren.Journal.Durable
import Jadren.Mir.DropCoverage
import Jadren.Mir.LoanLifetimes
import Jadren.Mir.RegionEscapes
import Jadren.Mir.RegionNesting
import Jadren.Package.ResolutionExact
import Jadren.Package.RoundTrip
import Jadren.Runtime.RemovalRuns
import Jadren.Runtime.StringRuns
import Jadren.Stdlib.Searching
import Jadren.Syntax.Building
import Jadren.Syntax.Tiling
import Jadren.Types.Exhaustiveness
import Jadren.Types.Homomorphism
import Jadren.Types.Termination
import Jadren.Ui.InteractionRuns
import Jadren.Ui.LayoutRuns
