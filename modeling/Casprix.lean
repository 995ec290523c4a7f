import Casprix.Regex.NarrowWords
import Casprix.Collections.NuwanMapRefine
import Casprix.Support.ArenaSession
import Casprix.Borrow.Conflicts
import Casprix.Pkg.ManifestRoundTrip
import Casprix.Sema.MoveSoundness
import Casprix.Lower.Lexical
import Casprix.Codegen.AsmExprCorrect
import Casprix.Codegen.Dispatch
import Casprix.Sema.ClassLayout
import Casprix.Memory.ArcLifecycle
import Casprix.Ml.KvDraft
import Casprix.Logging.Delivery
import Casprix.Ml.TaskGraphOnce
import Casprix.Ml.ParallelForOnce
import Casprix.Net.WebSocketRoundTrip
import Casprix.Opt.ArcElision
import Casprix.Ml.TensorGraphOutput
import Casprix.Ml.TensorMemory
import Casprix.Ml.CheckpointRestores
import Casprix.Net.HttpSegmentation
import Casprix.Opt.StrengthReduceRuns
import Casprix.Opt.ConstantFoldRuns
import Casprix.Opt.CopyRuns
import Casprix.Mir.Reachability
import Casprix.Mem2reg.Frontiers
import Casprix.Jit.Branches
import Casprix.Consteval.Termination
import Casprix.Jit.HomesSurvive
import Casprix.Collections.NuwanQueue
import Casprix.Collections.NuwanPq
import Casprix.Stdlib.ReplaceAll
import Casprix.Pkg.ResolverRuns
import Casprix.Collections.SwissLoad
import Casprix.Regex.Acceptance
import Casprix.Cvm.Members
import Casprix.Opt.SimdMeaning
import Casprix.Sema.DropPlanner
import Casprix.Pkg.SemverConstraints
import Casprix.Middle.Monomorphize
import Casprix.Middle.FreeVariables
import Casprix.Net.WebSocketBounds
import Casprix.Net.RingBuf
import Casprix.Net.MpscQueue
import Casprix.Concurrent.Channel
import Casprix.Memory.TlocalHeap
import Casprix.Io.FastFormat
import Casprix.Runtime.VtableOpt
