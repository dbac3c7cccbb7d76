import DistributedCaching.ApiProcess
import DistributedCaching.BoundedStaleness
import DistributedCaching.CacheAside
import DistributedCaching.CacheCells
import DistributedCaching.CacheContents
import DistributedCaching.CacheHistory
import DistributedCaching.CacheInterleaving
import DistributedCaching.CacheLinearizability
import DistributedCaching.CacheServer
import DistributedCaching.CacheTimeline
import DistributedCaching.CacheTransparency
import DistributedCaching.Coordinator
import DistributedCaching.ElectionOutcome
import DistributedCaching.ElectionProgress
import DistributedCaching.ElectionSafety
import DistributedCaching.EvictionBenchmark
import DistributedCaching.EvictionOrder
import DistributedCaching.EvictionPolicy
import DistributedCaching.ExpiryMap
import DistributedCaching.FailedWrites
import DistributedCaching.FormatScanner
import DistributedCaching.GoJson
import DistributedCaching.GoRuntime
import DistributedCaching.GrpcTransport
import DistributedCaching.HashRing
import DistributedCaching.HealthReport
import DistributedCaching.HeapConsistency
import DistributedCaching.HeapPolicies
import DistributedCaching.HeartbeatAuthenticity
import DistributedCaching.InMemoryCache
import DistributedCaching.IndexedHeap
import DistributedCaching.JsonText
import DistributedCaching.LeaderStability
import DistributedCaching.LeaderWiring
import DistributedCaching.Linearization
import DistributedCaching.LinkedNodes
import DistributedCaching.LruPolicy
import DistributedCaching.MajorityVotes
import DistributedCaching.NodeMetrics
import DistributedCaching.OrderedDict
import DistributedCaching.OrderedQuery
import DistributedCaching.Paging
import DistributedCaching.PeerRegistration
import DistributedCaching.PolicyChoice
import DistributedCaching.PolicyIndependence
import DistributedCaching.PrefixCache
import DistributedCaching.PrefixCompetitive
import DistributedCaching.PrefixCounting
import DistributedCaching.PrefixInclusion
import DistributedCaching.PrefixReplacement
import DistributedCaching.PrefixWorkload
import DistributedCaching.ProductApi
import DistributedCaching.ProductGoroutines
import DistributedCaching.ProductJson
import DistributedCaching.ProductListing
import DistributedCaching.ProxyRaces
import DistributedCaching.ProxyRetention
import DistributedCaching.ProxyTransparency
import DistributedCaching.RaftCluster
import DistributedCaching.RaftNode
import DistributedCaching.RaftProcess
import DistributedCaching.RaftStateFile
import DistributedCaching.RagPrefix
import DistributedCaching.RagSimulation
import DistributedCaching.RecencyStack
import DistributedCaching.ResponseProxy
import DistributedCaching.RightGroups
import DistributedCaching.RingIntegrity
import DistributedCaching.RingRouting
import DistributedCaching.StaleOnError
import DistributedCaching.TermHistory
import DistributedCaching.ThousandsSeparators
import DistributedCaching.TokenEncoding
import DistributedCaching.TransitionRuns
import DistributedCaching.UninterruptedCalls
import DistributedCaching.UpdateQuery
import DistributedCaching.VotePersistence
import DistributedCaching.WriteBehindCleanup
import DistributedCaching.WriteThroughRaces
