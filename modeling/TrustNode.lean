import TrustNode.Accounts.Store
import TrustNode.Base.Exec
import TrustNode.Base.Word
import TrustNode.ProgramExecutor.Instruction
import TrustNode.ProgramExecutor.Programs
import TrustNode.ProgramExecutor.Effect
import TrustNode.TxProcessor.Executor
import TrustNode.ProgramExecutor.Movement
import TrustNode.TxProcessor.Steps
import TrustNode.TxProcessor.Atomicity
import TrustNode.TxProcessor.Authorization
import TrustNode.ProgramExecutor.TokenSupply
import TrustNode.Mempool.Pool
import TrustNode.TxProcessor.Scheduler
import TrustNode.Blockstore.Record
import TrustNode.Poh.Hasher
import TrustNode.Validator.State
import TrustNode.Mempool.Invariant
import TrustNode.Validator.AtMostOnce
import TrustNode.Base.Lockstep
import TrustNode.ProgramExecutor.Footprint
import TrustNode.Base.Reorder
import TrustNode.TxProcessor.Footprint
import TrustNode.Validator.Replay
import TrustNode.Base.Ascending
import TrustNode.Base.GaussJordan
import TrustNode.Turbine.Erasure
import TrustNode.Turbine.Recovery
import TrustNode.Consensus.Tower
import TrustNode.Consensus.Step
import TrustNode.Consensus.Agreement
import TrustNode.Consensus.Tally
import TrustNode.Consensus.ForkChoice
import TrustNode.Consensus.Lockout
import TrustNode.Consensus.DeliveryOrder
import TrustNode.Accounts.Log
import TrustNode.Accounts.Refinement
import TrustNode.Accounts.Preimage
import TrustNode.Accounts.Restart
import TrustNode.Accounts.Binding
import TrustNode.Base.Codec
import TrustNode.Blockstore.Store
import TrustNode.Blockstore.Recovery
import TrustNode.Blockstore.Encoding
import TrustNode.Blockstore.Commitment
import TrustNode.Blockstore.Durability
import TrustNode.TxProcessor.Confinement
import TrustNode.TxProcessor.Ordering
import TrustNode.TxProcessor.Batches
import TrustNode.TxProcessor.Locks
import TrustNode.Poh.Recorder
import TrustNode.Turbine.Propagate
import TrustNode.Gossip.Convergence
import TrustNode.Gossip.Isolation
import TrustNode.Gossip.Network
import TrustNode.ProgramExecutor.Writes
import TrustNode.TxProcessor.Writes
import TrustNode.Base.Along
import TrustNode.Validator.Node
import TrustNode.Validator.StateRoot
import TrustNode.Validator.Numbering
import TrustNode.Validator.PohClock
import TrustNode.TxProcessor.Tokenless
import TrustNode.TxProcessor.Passes
import TrustNode.TxProcessor.ComputeCap
import TrustNode.Mempool.Accounting
import TrustNode.Base.Throughout
import TrustNode.Base.Acyclic
import TrustNode.Consensus.Calls
import TrustNode.Consensus.Rejection
import TrustNode.Consensus.StakeWeight
import TrustNode.Consensus.Ancestry
import TrustNode.Consensus.Children
import TrustNode.Consensus.BestHead
import TrustNode.Base.PairTree
import TrustNode.Accounts.Inclusion
import TrustNode.Base.Decoding
import TrustNode.ProgramExecutor.Codec
import TrustNode.Mempool.Representation
import TrustNode.Poh.Payload
import TrustNode.Consensus.Pruning
import TrustNode.Consensus.Supermajority
import TrustNode.Consensus.LockoutArithmetic
import TrustNode.ProgramExecutor.TokenFrame
import TrustNode.ProgramExecutor.Units
import TrustNode.TxProcessor.Report
import TrustNode.Mempool.Drain
import TrustNode.Mempool.Expiry
import TrustNode.Base.TopK
import TrustNode.Mempool.Eviction
import TrustNode.Turbine.DecodeSafety
import TrustNode.Turbine.Refusal
import TrustNode.Turbine.Consistency
import TrustNode.Turbine.Dedup
import TrustNode.Turbine.Neighborhoods
import TrustNode.Turbine.TurbineTree
import TrustNode.Turbine.TreeShape
import TrustNode.Accounts.TornLog
import TrustNode.Gossip.Capacity
import TrustNode.Base.Positional
import TrustNode.Rpc.Base58
import TrustNode.Base.Trail
import TrustNode.Consensus.ForkTree
import TrustNode.Consensus.ForkWalk
import TrustNode.Consensus.ForkHead
import TrustNode.Turbine.ByteMatrix
import TrustNode.Base.Binary64
import TrustNode.Consensus.Leader
import TrustNode.Consensus.LeaderShare
import TrustNode.Validator.Mining
import TrustNode.Base.TwoPhase
import TrustNode.Base.Trace
import TrustNode.ProgramExecutor.Trace
import TrustNode.TxProcessor.Serializable
import TrustNode.Validator.Threads
import TrustNode.Validator.Replicas
import TrustNode.Net.Message
import TrustNode.Turbine.Relay
import TrustNode.Turbine.Reach
import TrustNode.Turbine.Coverage
import TrustNode.Accounts.Concurrent
import TrustNode.Accounts.Linearizable
import TrustNode.TxProcessor.Storage
import TrustNode.TxProcessor.StoredBatch
