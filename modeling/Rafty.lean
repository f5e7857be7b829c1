import Rafty.Infra.Run
import Rafty.Message
import Rafty.Raft
import Rafty.Heartbeat
import Rafty.Node
import Rafty.Cluster
import Rafty.Interceptor
import Rafty.Infra.Quorum
import Rafty.Replication.Log
import Rafty.Replication.Protocol
import Rafty.Replication.Completeness
import Rafty.Replication.Invariant
import Rafty.Properties.Log
import Rafty.Properties.Raft
import Rafty.Properties.Heartbeat
import Rafty.Properties.Node
import Rafty.Safety.Votes
import Rafty.Safety.ApplyOrder
import Rafty.Properties.Cluster
import Rafty.Properties.Interceptor
import Rafty.Safety.Election
import Rafty.Safety.OneLeader
import Rafty.Safety.Leader
import Rafty.Safety.Refinement
import Rafty.Safety.Wire
import Rafty.Safety.Simulation
import Rafty.Safety.Logs
import Rafty.Safety.StateMachine
import Rafty.Safety.Proposals
import Rafty.Safety.Partition
import Rafty.Safety.TotalOrder
import Rafty.Safety.Minority
import Rafty.Safety.Timers
import Rafty.Safety.Lease
import Rafty.Safety.LeaseFlags
import Rafty.Safety.Idempotence
import Rafty.Pair
import Rafty.Safety.Repair
import Rafty.Safety.Indices
import Rafty.Infra.Reach
import Rafty.Safety.Running
import Rafty.Safety.Alone
import Rafty.Safety.Campaign
import Rafty.Safety.Catchup
import Rafty.Safety.Progress
import Rafty.ProposeSync
import Rafty.Safety.ProposeSync
import Rafty.Infra.Cursor
import Rafty.Kv.Codec
import Rafty.Properties.Codec
import Rafty.Kv.Server
import Rafty.Kv.Node
import Rafty.Infra.Machine
import Rafty.Properties.Kv
import Rafty.Safety.Retries
import Rafty.Safety.ExactlyOnce
import Rafty.Safety.Waiters
import Rafty.Safety.Promises
import Rafty.Safety.FastRead
import Rafty.Infra.Linearizable
import Rafty.Kv.Spec
import Rafty.Safety.Replay
import Rafty.Safety.Answers
import Rafty.Infra.View
import Rafty.Kv.Client
import Rafty.Kv.Cluster
import Rafty.Properties.KvCluster
import Rafty.Safety.Clients
import Rafty.Infra.SortedMap
import Rafty.PeerAddrs
import Rafty.Properties.PeerAddrs
import Rafty.Infra.Monitor
import Rafty.MessageQueue
import Rafty.Properties.MessageQueue
import Rafty.Safety.QueueOrder
import Rafty.Safety.QueueWakeups
import Rafty.PeerWorker
import Rafty.Properties.PeerWorker
import Rafty.Safety.Workers
import Rafty.Safety.EndToEnd
import Rafty.Safety.Linearizability
import Rafty.Properties.KvCalls
import Rafty.Safety.PastReads
import Rafty.Safety.Pending
import Rafty.Safety.Attempts
import Rafty.Kv.ApplyStream
import Rafty.Safety.ApplyStream
