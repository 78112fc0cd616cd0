import EffectFibers.Algebra.Datum
import EffectFibers.Cell.Trial
import EffectFibers.Context.Pool
import EffectFibers.Either
import EffectFibers.Script.Blocking
import EffectFibers.Value.Order
import EffectFibers.Proofs.StoreGrowth
import EffectFibers.Proofs.FiberStep
import EffectFibers.Proofs.MachineStep
import EffectFibers.Proofs.Runtime
import EffectFibers.Proofs.Crew
import EffectFibers.Proofs.Ledger
import EffectFibers.Proofs.Brackets
import EffectFibers.Proofs.Course
import EffectFibers.Proofs.ResourceUse
import EffectFibers.Proofs.Starts
import EffectFibers.Proofs.Unwinding
import EffectFibers.Proofs.Structured
import EffectFibers.Proofs.Trampoline
import EffectFibers.Proofs.CellActions
import EffectFibers.Proofs.TokenHandles
import EffectFibers.Proofs.Containment
import EffectFibers.Proofs.Interchange
import EffectFibers.Proofs.Observation
import EffectFibers.Proofs.Causes
import EffectFibers.Proofs.Dropping
import EffectFibers.Proofs.Masking
import EffectFibers.Proofs.CellAttempts
import EffectFibers.Proofs.Setters
import EffectFibers.Proofs.RaceLaw
import EffectFibers.Proofs.Upkeep
import EffectFibers.Proofs.Stations
import EffectFibers.Proofs.Scoping
import EffectFibers.Proofs.Promises
import EffectFibers.Proofs.ResourceIdentity
import EffectFibers.Proofs.Dealings
import EffectFibers.Proofs.OtherCallbacks
import EffectFibers.Proofs.SingleShot
import EffectFibers.Proofs.Relays
import EffectFibers.Proofs.Whereabouts
import EffectFibers.Proofs.MonoidFolds
import EffectFibers.Proofs.Guarantees
import EffectFibers.Proofs.Timeouts
import EffectFibers.Proofs.Agreement
