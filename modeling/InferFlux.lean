import InferFlux.PrefixCache.Limits
import InferFlux.PrefixCache.BestPrefix
import InferFlux.Execution.Streaming
import InferFlux.Execution.FinishReason
import InferFlux.Router.Isolation
import InferFlux.Http.Framing
import InferFlux.Http.RequestLimit
import InferFlux.Http.ParseRobustness
import InferFlux.Http.ResponseHead
import InferFlux.Text.Utf8Assembly
import InferFlux.Auth.RateGuarantee
import InferFlux.Policy.KeyMutation
import InferFlux.Policy.RoundTrip
import InferFlux.Text.ReasoningCuts
import InferFlux.Backends.MlxTokenizer
import InferFlux.Backends.SafetensorsParser
import InferFlux.Http.CompletionChoices
import InferFlux.Scheduler.SessionLeases
import InferFlux.Scheduler.Promises
import InferFlux.Scheduler.Shutdown
import InferFlux.Scheduler.WorkerDeath
import InferFlux.Execution.ChunkedPrefill
import InferFlux.Execution.TokenBudget
import InferFlux.Router.ModelSelection
import InferFlux.Scheduler.Embeddings
import InferFlux.Speculative.SpeculativeDecoder
import InferFlux.Execution.BurstDecode
import InferFlux.Execution.LoopGuard
import InferFlux.KVCache.Isolation
import InferFlux.Scheduler.BatchPartition
import InferFlux.Scheduler.FairBatches
import InferFlux.Scheduler.FreeFences
import InferFlux.Scheduler.PrefillPositions
import InferFlux.Scheduler.SwapVictims
import InferFlux.KVCache.OffloadOrder
import InferFlux.Scheduler.ReleaseReports
import InferFlux.Http.ImageMarkers
import InferFlux.Router.ModelIds
import InferFlux.Execution.AsyncLanes
import InferFlux.Router.ModelRegistry
