import WeightedSemaphore.Absorption
import WeightedSemaphore.Access
import WeightedSemaphore.Agreement
import WeightedSemaphore.Alone
import WeightedSemaphore.Amounts
import WeightedSemaphore.Assertions
import WeightedSemaphore.Availability
import WeightedSemaphore.BoundedWork
import WeightedSemaphore.CallOrder
import WeightedSemaphore.Cancellation
import WeightedSemaphore.Completion
import WeightedSemaphore.Confluence
import WeightedSemaphore.Conservation
import WeightedSemaphore.Counted
import WeightedSemaphore.CountedSteps
import WeightedSemaphore.Debug
import WeightedSemaphore.DeedSteps
import WeightedSemaphore.Deeds
import WeightedSemaphore.Demand
import WeightedSemaphore.Erasure
import WeightedSemaphore.Exchanges
import WeightedSemaphore.Fates
import WeightedSemaphore.Flipping
import WeightedSemaphore.Footprint
import WeightedSemaphore.Guard
import WeightedSemaphore.GuardFrame
import WeightedSemaphore.GuardLedger
import WeightedSemaphore.Handshake
import WeightedSemaphore.History
import WeightedSemaphore.Lib.Fifo
import WeightedSemaphore.Lib.Halting
import WeightedSemaphore.Lib.Linear
import WeightedSemaphore.Lib.Links
import WeightedSemaphore.Lib.Logs
import WeightedSemaphore.Lib.Ranking
import WeightedSemaphore.Lib.Runs
import WeightedSemaphore.Lib.Shares
import WeightedSemaphore.Lib.Sums
import WeightedSemaphore.Lib.Tally
import WeightedSemaphore.Limit
import WeightedSemaphore.Linearizability
import WeightedSemaphore.LockFree
import WeightedSemaphore.Losses
import WeightedSemaphore.Machine
import WeightedSemaphore.Operations
import WeightedSemaphore.Outcomes
import WeightedSemaphore.Outliving
import WeightedSemaphore.Ownership
import WeightedSemaphore.Packing
import WeightedSemaphore.Parking
import WeightedSemaphore.Pipe
import WeightedSemaphore.Poison
import WeightedSemaphore.Priority
import WeightedSemaphore.Protocol
import WeightedSemaphore.ProtocolHistory
import WeightedSemaphore.ProtocolInvariant
import WeightedSemaphore.ProtocolLimit
import WeightedSemaphore.ProtocolPermits
import WeightedSemaphore.ProtocolQueue
import WeightedSemaphore.QueueFree
import WeightedSemaphore.QueueFreeState
import WeightedSemaphore.QueueFreeSteps
import WeightedSemaphore.QueueShape
import WeightedSemaphore.Quiescence
import WeightedSemaphore.Reentrancy
import WeightedSemaphore.References
import WeightedSemaphore.RefineAcquire
import WeightedSemaphore.RefineDrop
import WeightedSemaphore.RefinePop
import WeightedSemaphore.RefineRelease
import WeightedSemaphore.Refinement
import WeightedSemaphore.ReleaseExchanges
import WeightedSemaphore.Returns
import WeightedSemaphore.RwLock
import WeightedSemaphore.Sequential
import WeightedSemaphore.Service
import WeightedSemaphore.Simulation
import WeightedSemaphore.SimulationFrame
import WeightedSemaphore.SimulationLocal
import WeightedSemaphore.Solo
import WeightedSemaphore.SoloSteps
import WeightedSemaphore.State
import WeightedSemaphore.StepsToExchange
import WeightedSemaphore.Tenure
import WeightedSemaphore.Unlinking
import WeightedSemaphore.Visits
import WeightedSemaphore.Waker
import WeightedSemaphore.WakerSpec
import WeightedSemaphore.WakerTokens
import WeightedSemaphore.WakerTrace
import WeightedSemaphore.WakerWords
import WeightedSemaphore.WakeupSteps
import WeightedSemaphore.Wakeups
import WeightedSemaphore.Whole
import WeightedSemaphore.Word
