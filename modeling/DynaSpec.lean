import DynaSpec.Constrained.ReasonerGrammar
import DynaSpec.Eplb.ElasticityAware
import DynaSpec.Eplb.ExpertLocation
import DynaSpec.Layers.StaticHead
import DynaSpec.Managers.StopText
import DynaSpec.Managers.DraftAlignment
import DynaSpec.Managers.PenaltyOwn
import DynaSpec.Managers.SchedulePolicy
import DynaSpec.MemCache.PrefetchConserves
import DynaSpec.MemCache.SwaRadixRuns
import DynaSpec.MemCache.ReqCacheOwn
import DynaSpec.MemCache.SwaAllocator
import DynaSpec.MemCache.Hf3fs
import DynaSpec.Parser.ReasoningParser
import DynaSpec.Router.DecodeStream
import DynaSpec.Router.JsonParser
import DynaSpec.Router.Policies
import DynaSpec.Router.StopDecoder
import DynaSpec.Router.TokenizerCache
import DynaSpec.Router.WorkerRegistry
import DynaSpec.Speculative.BuildTreeFaithful
import DynaSpec.Speculative.DraftVocab
import DynaSpec.Speculative.NgramMask
import DynaSpec.Speculative.NgramWorker
import DynaSpec.Speculative.VerifyKvCommit
import DynaSpec.Speculative.VerifyTree
