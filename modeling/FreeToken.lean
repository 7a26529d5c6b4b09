import FreeToken.Server.RebuildControl
import FreeToken.Moe.HybridDecode
import FreeToken.Moe.HybridMirror
import FreeToken.Moe.PrefetchSplit
import FreeToken.Scheduler.FailedAdmission
import FreeToken.Daemon.Supervision
import FreeToken.Server.AccountingRun
import FreeToken.Server.GenerationProtocol
import FreeToken.Server.HarmonyReasoning
import FreeToken.Server.MiniMaxM3Reasoning
import FreeToken.Checkpoint.FtwBankLayouts
import FreeToken.Message.Wire
import FreeToken.Server.StreamAdapters
import FreeToken.Models.PleOverlap
import FreeToken.Kernel.Fp8Linear
import FreeToken.Models.Dsv4Forwards
import FreeToken.Attention.SparseBackends
import FreeToken.Kernel.SparseAttendPaths
import FreeToken.Moe.ExpertFilling
import FreeToken.Kernel.Df11Agree
import FreeToken.Models.PleConvRuns
import FreeToken.Engine.CacheBudget
import FreeToken.Kernel.Nvfp4Paths
import FreeToken.Kernel.QsaTopkPaths
import FreeToken.Kernel.SamplingExact
import FreeToken.Moe.FetchSplit
import FreeToken.KVCache.Dsv4CostModel
import FreeToken.KVCache.SWACalls
import FreeToken.Scheduler.Integrity
