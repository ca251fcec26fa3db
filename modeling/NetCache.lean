import NetCache.Lib.Loop
import NetCache.Lib.Machine
import NetCache.Lib.Tokens
import NetCache.Lib.NodeList
import NetCache.Lib.Recency
import NetCache.Lib.Inclusion
import NetCache.Lib.WorkingSet
import NetCache.Lib.History
import NetCache.Lib.Heap
import NetCache.Lib.Replay
import NetCache.Lib.Inevitable
import NetCache.Lib.Decimal
import NetCache.Lib.Lockstep
import NetCache.Evictors
import NetCache.Policies
import NetCache.Cache
import NetCache.Lru
import NetCache.CacheRefinement
import NetCache.Progress
import NetCache.EvictorUse
import NetCache.Memory
import NetCache.Pointers
import NetCache.Capacity
import NetCache.Inclusion
import NetCache.WorkingSet
import NetCache.Destructor
import NetCache.HTTPUtilities
import NetCache.Conversion
import NetCache.Codec
import NetCache.JSONCodec
import NetCache.Receive
import NetCache.Server
import NetCache.Client
import NetCache.Handlers
import NetCache.Reachable
import NetCache.Requests
import NetCache.Exchange
import NetCache.Network
import NetCache.Limits
import NetCache.Serving
import NetCache.Session
import NetCache.Shutdown
import NetCache.PutGrammar
import NetCache.Freshness
import NetCache.Reference
import NetCache.Answers
import NetCache.Soundness
import NetCache.Delivery
import NetCache.Transcript
import NetCache.Segments
import NetCache.Replies
import NetCache.Arguments
import NetCache.Startup
import NetCache.ServerMemory
import NetCache.ClientMemory
