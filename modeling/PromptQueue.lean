import PromptQueue.Base.Table
import PromptQueue.Base.Machine
import PromptQueue.Base.Lease
import PromptQueue.Base.Simulation
import PromptQueue.Base.Potential
import PromptQueue.Base.Trace
import PromptQueue.Base.RateLimit
import PromptQueue.Models
import PromptQueue.Exceptions
import PromptQueue.Db.Schema
import PromptQueue.Db.ProcessingJob
import PromptQueue.Db.PromptRequest
import PromptQueue.Db.SemanticCache
import PromptQueue.Db.Transaction
import PromptQueue.Db.Calls
import PromptQueue.Services.Cache
import PromptQueue.Services.Idempotency
import PromptQueue.Services.PromptPipeline
import PromptQueue.Services.PromptProcessor
import PromptQueue.Services.RateLimit
import PromptQueue.Services.LlmMock
import PromptQueue.World
import PromptQueue.Worker.Fleet
import PromptQueue.Worker.Pool
import PromptQueue.Proof.Moves
import PromptQueue.Proof.Effects
import PromptQueue.Proof.Steps
import PromptQueue.Proof.LeaseColumns
import PromptQueue.Proof.Snapshot
import PromptQueue.Proof.Ownership
import PromptQueue.Proof.Replay
import PromptQueue.Proof.Stranded
import PromptQueue.Proof.Final
import PromptQueue.Proof.Fencing
import PromptQueue.Proof.Agreement
import PromptQueue.Proof.Exclusive
import PromptQueue.Proof.Provenance
import PromptQueue.Proof.CacheAgree
import PromptQueue.Proof.CallBound
import PromptQueue.Proof.Budget
import PromptQueue.Proof.SingleCall
import PromptQueue.Proof.TokenBucket
import PromptQueue.Proof.RateBudget
import PromptQueue.Proof.Shutdown
import PromptQueue.Proof.Abort
import PromptQueue.Proof.Notify
import PromptQueue.Proof.Attempts
import PromptQueue.Proof.Backpressure
import PromptQueue.Proof.Reenqueue
import PromptQueue.Proof.Outcome
import PromptQueue.Base.Selection
import PromptQueue.Proof.Reaper
import PromptQueue.Proof.ClaimOrder
import PromptQueue.Proof.Guard
import PromptQueue.Proof.WaitTime
import PromptQueue.Proof.Mirror
import PromptQueue.Proof.Lookup
import PromptQueue.Base.Separator
import PromptQueue.Api.Schemas
import PromptQueue.Proof.PromptId
import PromptQueue.Db.ListenNotify
import PromptQueue.Services.PollLoop
import PromptQueue.Proof.Listen
import PromptQueue.Proof.DriverError
import PromptQueue.Proof.RetryCount
import PromptQueue.Proof.DeadLease
import PromptQueue.Api.Routes
import PromptQueue.Proof.ResultFields
import PromptQueue.Base.Words
import PromptQueue.Services.Embeddings
import PromptQueue.Proof.Normalization
import PromptQueue.Proof.DeadEnd
import PromptQueue.Base.Periodic
import PromptQueue.Worker.Clock
import PromptQueue.Proof.Timeline
import PromptQueue.Proof.LiveLease
import PromptQueue.Proof.Recovery
import PromptQueue.Worker.Process
import PromptQueue.Worker.Cluster
import PromptQueue.Proof.TaskGroup
import PromptQueue.Proof.ProcessExit
import PromptQueue.Proof.Contract
import PromptQueue.Api.Health
import PromptQueue.Proof.Health
import PromptQueue.Proof.SoleWorker
import PromptQueue.Proof.Workload
import PromptQueue.Proof.Drain
import PromptQueue.Proof.Refinement
import PromptQueue.Proof.Graceful
import PromptQueue.Proof.HitCount
