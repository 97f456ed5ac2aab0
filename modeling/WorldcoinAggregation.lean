import WorldcoinAggregation.Base.BigEndian
import WorldcoinAggregation.Base.Fallible
import WorldcoinAggregation.Base.Keccak
import WorldcoinAggregation.Base.Synthesis
import WorldcoinAggregation.Base.Merkle
import WorldcoinAggregation.Circuit.Gadgets
import WorldcoinAggregation.Encoding
import WorldcoinAggregation.Circuit.V1.Leaf
import WorldcoinAggregation.Circuit.V1.Intermediate
import WorldcoinAggregation.Circuit.V1.Root
import WorldcoinAggregation.Circuit.Utils
import WorldcoinAggregation.Circuit.MerkleTree
import WorldcoinAggregation.Circuit.V2.Leaf
import WorldcoinAggregation.Circuit.V2.Intermediate
import WorldcoinAggregation.Circuit.ProofTree
import WorldcoinAggregation.Circuit.V1.Soundness
import WorldcoinAggregation.Circuit.V2.Soundness
import WorldcoinAggregation.Circuit.HashedStrings
import WorldcoinAggregation.Scheduler.NodeParams
import WorldcoinAggregation.Scheduler.RecursiveRequest
import WorldcoinAggregation.Scheduler.Recursion
import WorldcoinAggregation.Scheduler.TreeWalk
import WorldcoinAggregation.Scheduler.RequestTree
import WorldcoinAggregation.Scheduler.TreeLevels
import WorldcoinAggregation.Circuit.Completeness
import WorldcoinAggregation.Scheduler.CircuitFactory
import WorldcoinAggregation.Scheduler.Servers
import WorldcoinAggregation.Base.Async
import WorldcoinAggregation.Base.Machines
import WorldcoinAggregation.Scheduler.AsyncScheduler
import WorldcoinAggregation.Scheduler.LocalTasks
import WorldcoinAggregation.Scheduler.AsyncSpec
import WorldcoinAggregation.Scheduler.AsyncRefinement
import WorldcoinAggregation.Scheduler.TaskTracker
import WorldcoinAggregation.Scheduler.Dispatcher
import WorldcoinAggregation.Scheduler.SchedulerSystem
import WorldcoinAggregation.Scheduler.SystemRuns
import WorldcoinAggregation.Scheduler.Summaries
import WorldcoinAggregation.Scheduler.Provenance
import WorldcoinAggregation.Scheduler.KeygenTree
import WorldcoinAggregation.Base.Scripts
import WorldcoinAggregation.Base.Formats
import WorldcoinAggregation.Prover.ProofIds
import WorldcoinAggregation.Prover.ProvingServer
import WorldcoinAggregation.Prover.Proving
import WorldcoinAggregation.Prover.ProvingAnswers
import WorldcoinAggregation.Prover.ProvingRuns
import WorldcoinAggregation.Prover.LocalRuns
import WorldcoinAggregation.Scheduler.Keygen
import WorldcoinAggregation.Scheduler.Provable
import WorldcoinAggregation.Scheduler.Joins
import WorldcoinAggregation.Scheduler.Completeness
import WorldcoinAggregation.Base.CallStack
import WorldcoinAggregation.Base.SpentSet
import WorldcoinAggregation.Contract.Abi
import WorldcoinAggregation.Contract.Payouts
import WorldcoinAggregation.Contract.V1.Model
import WorldcoinAggregation.Contract.V1.Packing
import WorldcoinAggregation.Contract.V1.Accounting
import WorldcoinAggregation.Contract.V1.PartialBatches
import WorldcoinAggregation.Contract.V2.Model
import WorldcoinAggregation.Contract.V2.MerkleClaims
import WorldcoinAggregation.Contract.V2.Accounting
import WorldcoinAggregation.Contract.V2.ClaimsRoots
import WorldcoinAggregation.Utils.MerkleSisterNodes
import WorldcoinAggregation.Utils.ClaimScript
import WorldcoinAggregation.Contract.Submission
import WorldcoinAggregation.Contract.V2.Validations
import WorldcoinAggregation.Contract.Nullifiers
import WorldcoinAggregation.Contract.Extraction
import WorldcoinAggregation.Contract.V1.ProvenPayments
import WorldcoinAggregation.Contract.V2.ProvenPayments
import WorldcoinAggregation.Contract.V1.Delivery
import WorldcoinAggregation.Contract.V2.Delivery
