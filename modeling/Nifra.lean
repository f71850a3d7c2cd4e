import Nifra.Lib.Runs
import Nifra.Text.JSString
import Nifra.Durable.Records
import Nifra.Durable.LeaseStores
import Nifra.Durable.Worker
import Nifra.Durable.WorkerSafety
import Nifra.Durable.BackendScan
import Nifra.Durable.Paging
import Nifra.Durable.ApprovalHistory
import Nifra.Durable.ApprovalSafety
import Nifra.Durable.Saga
import Nifra.Durable.SagaHistory
import Nifra.Durable.SagaInvariant
import Nifra.Durable.SagaSafety
import Nifra.Idempotency.Safety
import Nifra.Jobs.StoreOperations
import Nifra.Jobs.StoreInvariant
import Nifra.Lib.Split
import Nifra.Lib.StringSearch
import Nifra.Multipart.Headers
import Nifra.Multipart.RoundTrip
import Nifra.Postgres.PlanWalk
import Nifra.Postgres.PlanSafety
import Nifra.Router.Pattern
import Nifra.Tools.Contract
import Nifra.Tools.Deeds
import Nifra.Tools.Exclusion
import Nifra.Tools.Safety
import Nifra.Idempotency.Lane
import Nifra.Idempotency.LaneSound
import Nifra.Idempotency.LaneSafety
import Nifra.Middleware.AdmissionSafety
import Nifra.Live.Chains
import Nifra.Live.HubSafety
import Nifra.WebMcp.PredictionInvariant
import Nifra.WebMcp.PredictionSafety
import Nifra.Cache.Fences
import Nifra.Cache.FlightSafety
import Nifra.Cache.Invalidations
import Nifra.Isr.Handler
import Nifra.Isr.Freshness
import Nifra.Live.HubObjectInvariant
import Nifra.Live.HubObjectSafety
import Nifra.Live.RedisStream
import Nifra.Live.RedisFollowing
import Nifra.Live.RedisSafety
import Nifra.Live.GrantSafety
import Nifra.Channels.Continuity
import Nifra.Channels.HubMembers
import Nifra.Channels.HubSafety
import Nifra.Invalidation.Pipeline
import Nifra.Invalidation.SettlingSafety
import Nifra.Diff.Soundness
import Nifra.Diff.RoundTrip
import Nifra.Server.RequestTarget
import Nifra.Idempotency.LossyNumber
import Nifra.Server.RangeSets
import Nifra.Server.RangeSound
import Nifra.Router.MixedKeys
import Nifra.Router.MixedMatch
import Nifra.Router.SpecificityLaws
import Nifra.Durable.EffectJournalSafety
import Nifra.Router.MatchCache
import Nifra.Text.CanonicalJSON
import Nifra.Lib.Conditions
import Nifra.Wire.Base64
import Nifra.Wire.DecodeSafety
import Nifra.Cache.Representation
import Nifra.Lib.Positional
import Nifra.Lib.Slices
import Nifra.Middleware.IpAddress
import Nifra.Middleware.IpRanges
import Nifra.Middleware.PrettyJson
import Nifra.Middleware.RateLimit
import Nifra.Server.CookieReading
import Nifra.Lib.TreeSize
import Nifra.Server.ProtoGuard
import Nifra.Server.ProtoGuardSound
import Nifra.Deferred.Forgery
import Nifra.Isr.UrlKeys
import Nifra.Live.HubBalance
import Nifra.Live.HubBooksSafety
import Nifra.Query.Entry
import Nifra.Query.Indexes
import Nifra.Query.Invalidation
import Nifra.Query.Mutation
import Nifra.Query.MutationRuns
import Nifra.Query.Paged
import Nifra.Schema.DateTime
import Nifra.Search.ClientOnly
import Nifra.Sse.EventStream
import Nifra.I18n.Negotiate
import Nifra.Ppr.Admission
import Nifra.Agent.EventStream
import Nifra.Ppr.Frames
import Nifra.Tools.Budget
import Nifra.Tools.Ledger
import Nifra.Router.MatchTransparency
