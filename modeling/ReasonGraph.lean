import ReasonGraph.Rule.Table
import ReasonGraph.Schema.Record
import ReasonGraph.Settings
import ReasonGraph.Failure
import ReasonGraph.Report.Explain
import ReasonGraph.Session
import ReasonGraph.Journal.Console
import ReasonGraph.Proofs.Replay
import ReasonGraph.Proofs.Seating
import ReasonGraph.Proofs.View
import ReasonGraph.Proofs.Bounds
import ReasonGraph.Proofs.Restriction
import ReasonGraph.Proofs.Settlement
import ReasonGraph.Proofs.Standing
import ReasonGraph.Proofs.Clash
import ReasonGraph.Proofs.Exclusion
import ReasonGraph.Proofs.Stickiness
import ReasonGraph.Proofs.Precedence
import ReasonGraph.Proofs.Interleaving
import ReasonGraph.Proofs.Shadow
import ReasonGraph.Proofs.Reassertion
import ReasonGraph.Proofs.Ascent
import ReasonGraph.Proofs.Confinement
import ReasonGraph.Proofs.Fallout
import ReasonGraph.Proofs.Indifference
import ReasonGraph.Proofs.Grounding
import ReasonGraph.Proofs.Admission
import ReasonGraph.Proofs.Readback
import ReasonGraph.Proofs.Reseeding
import ReasonGraph.Proofs.Docket
import ReasonGraph.Proofs.Budget
import ReasonGraph.Proofs.Reencoding
import ReasonGraph.Proofs.Orientation
import ReasonGraph.Proofs.Provenance
import ReasonGraph.Proofs.Partners
import ReasonGraph.Proofs.Leftovers
import ReasonGraph.Proofs.Extension
import ReasonGraph.Proofs.Resumption
import ReasonGraph.Proofs.Licence
import ReasonGraph.Proofs.Withdrawal
import ReasonGraph.Proofs.Growth
import ReasonGraph.Proofs.Inheritance
import ReasonGraph.Proofs.Tandem
import ReasonGraph.Proofs.Roster
import ReasonGraph.Proofs.Appearance
import ReasonGraph.Proofs.Circuits
import ReasonGraph.Proofs.Shape
import ReasonGraph.Proofs.Calm
import ReasonGraph.Proofs.Discovery
import ReasonGraph.Proofs.Remainder
import ReasonGraph.Proofs.Repeats
import ReasonGraph.Proofs.Confirmation
import ReasonGraph.Proofs.Dismissal
import ReasonGraph.Proofs.Attenuation
import ReasonGraph.Proofs.Tenure
import ReasonGraph.Proofs.Vetting
import ReasonGraph.Proofs.Filing
import ReasonGraph.Proofs.Traversal
import ReasonGraph.Proofs.Backtracking
