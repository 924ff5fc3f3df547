import Reclaim.Main
import Reclaim.Proofs.Actions
import Reclaim.Proofs.Ages
import Reclaim.Proofs.Annals
import Reclaim.Proofs.Arguments
import Reclaim.Proofs.Balance
import Reclaim.Proofs.Beginnings
import Reclaim.Proofs.Books
import Reclaim.Proofs.Brackets
import Reclaim.Proofs.Buckets
import Reclaim.Proofs.Cascade
import Reclaim.Proofs.Classification
import Reclaim.Proofs.Collecting
import Reclaim.Proofs.Counters
import Reclaim.Proofs.CountingLaw
import Reclaim.Proofs.CyclicGarbage
import Reclaim.Proofs.Finalizers
import Reclaim.Proofs.FullCollection
import Reclaim.Proofs.Isolation
import Reclaim.Proofs.Numbering
import Reclaim.Proofs.Outcomes
import Reclaim.Proofs.Ownership
import Reclaim.Proofs.Pace
import Reclaim.Proofs.PartialCollection
import Reclaim.Proofs.Postponement
import Reclaim.Proofs.Promotion
import Reclaim.Proofs.Reclaimed
import Reclaim.Proofs.Referrers
import Reclaim.Proofs.Refusals
import Reclaim.Proofs.ReleaseOrder
import Reclaim.Proofs.Releases
import Reclaim.Proofs.Repetition
import Reclaim.Proofs.SavedGarbage
import Reclaim.Proofs.Schedule
import Reclaim.Proofs.Scripts
import Reclaim.Proofs.SecondAnalysis
import Reclaim.Proofs.Sessions
import Reclaim.Proofs.ShellCollections
import Reclaim.Proofs.Termination
import Reclaim.Proofs.ThresholdLists
import Reclaim.Proofs.Transparency
import Reclaim.Proofs.Words
import Reclaim.Proofs.Worklist
