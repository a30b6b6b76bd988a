import RefCount.Lts
import RefCount.Word
import RefCount.Machine
import RefCount.Steps
import RefCount.Polls
import RefCount.Block
import RefCount.Lock
import RefCount.Exclusion
import RefCount.Count
import RefCount.Orphan
import RefCount.Lifetime
import RefCount.Wakeup
import RefCount.Registration
import RefCount.Linear
import RefCount.ArrayQueue
import RefCount.Ring
import RefCount.Occupancy
import RefCount.QueueSteps
import RefCount.Linearizable
import RefCount.Solo
import RefCount.Sequential
import RefCount.Consume
import RefCount.Blocking
import RefCount.Observers
import RefCount.Attempts
import RefCount.Tally
import RefCount.Handover
import RefCount.Serial
import RefCount.Executor
import RefCount.Fairness
import RefCount.Joint
import RefCount.Refinement
import RefCount.JointRuns
import RefCount.Orderings
import RefCount.HappensBefore
import RefCount.RaceFree
import RefCount.SlotOrderings
import RefCount.StaleStamps
import RefCount.SlotRaces
import RefCount.Bounded
import RefCount.Conservation
import RefCount.ReadersWriter
import RefCount.WholeLife
import RefCount.Hindsight
import RefCount.WeakHistories
import RefCount.WeakObservers
