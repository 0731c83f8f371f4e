import Headroom.PrefixReplay.Conservation
import Headroom.PrefixReplay.Alternates
import Headroom.PrefixReplay.Streams
import Headroom.Tools.RosterPin
import Headroom.Redact.Stream
import Headroom.Transforms.DedupLoss
import Headroom.OpenAi.ChatAgreement
import Headroom.OpenAi.TurnRoundTrip
import Headroom.OpenAi.MessageOrder
import Headroom.History.HistoryRepair
import Headroom.OpenAi.ReplyOrder
import Headroom.Sse.ToolWithholding
import Headroom.Sse.DroppedStream
import Headroom.PrefixReplay.Relocation
import Headroom.SmartCrusher.HardConstraints
import Headroom.LiveZone.GuardedOutput
import Headroom.LiveZone.PrefixKept
import Headroom.Ccr.EvictionOrder
import Headroom.Routed.EarlyStreamRetry
import Headroom.Reasoning.TailMarkers
import Headroom.Preamble.RoleSentence
import Headroom.Offload.Forgetting
import Headroom.ToolSearch.Supportable
import Headroom.Semantic.Cache
import Headroom.Pipeline.Accounting
import Headroom.PrefixReplay.Chains
import Headroom.PrefixReplay.HeadIndex
import Headroom.PrefixReplay.Reapplied
import Headroom.CacheControl.TtlRepair
import Headroom.PrefixReplay.CacheBudget
import Headroom.Transforms.LostTags
import Headroom.Transforms.CheckedWork
import Headroom.Sse.ItemsOnce
import Headroom.OpenAi.PrefixStable
import Headroom.Bedrock.ParsedExactly
import Headroom.LiveZone.EmbeddedRouting
import Headroom.Bedrock.SseTranslation
import Headroom.Proxy.TerminalVerdict
import Headroom.CacheStabilization.StickyRuns
import Headroom.SmartCrusher.SampleBudget
import Headroom.ToolSearch.ValidTools
import Headroom.Ccr.RetrieveRepair
import Headroom.Proxy.RoundUsage
import Headroom.Transforms.DiffNoise
import Headroom.Ccr.SplicedCalls
import Headroom.Offload.Retrieval
