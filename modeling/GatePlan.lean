import GatePlan.Command
import GatePlan.Proofs.Independence
import GatePlan.Proofs.Peak
import GatePlan.Proofs.PlanStreams
import GatePlan.Proofs.Simulation
import GatePlan.Proofs.GivenCredits
import GatePlan.Proofs.PoolCalls
import GatePlan.Proofs.DepthExact
import GatePlan.Proofs.Correspondence
import GatePlan.Proofs.AnyBytes
import GatePlan.Proofs.AcceptedPlans
import GatePlan.Proofs.AddressRule
import GatePlan.Proofs.LastReads
import GatePlan.Proofs.LocationRule
import GatePlan.Proofs.LevelsWithoutCredits
import GatePlan.Proofs.OptimalCredits
import GatePlan.Proofs.Reordering
import GatePlan.Proofs.OrderIndependence
import GatePlan.Proofs.AddressWidth
import GatePlan.Proofs.Reuse
import GatePlan.Proofs.FailedCompilation
import GatePlan.Proofs.Session
import GatePlan.Proofs.CutFiles
import GatePlan.Proofs.CanonicalStreams
import GatePlan.Proofs.Threads
import GatePlan.Proofs.PrefixCodes
import GatePlan.Proofs.ShortestForms
import GatePlan.Proofs.LiveWires
import GatePlan.Proofs.RefusedGates
import GatePlan.Proofs.WorkSharing
import GatePlan.Proofs.AtomicLevels
import GatePlan.Proofs.Adder
import GatePlan.Proofs.Reduction
import GatePlan.Proofs.Statistics
import GatePlan.Proofs.Loading
import GatePlan.Proofs.Lookup
import GatePlan.Proofs.LevelNumbers
import GatePlan.Proofs.ProgressBar
