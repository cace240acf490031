import HotReload.Cache.Codec
import HotReload.Change.Listing
import HotReload.Proofs.Change.RoundTrip
import HotReload.Proofs.Gate.Atomic
import HotReload.Proofs.Gate.Decision
import HotReload.Proofs.Verdict.KeptStatements
import HotReload.Proofs.Gate.Places
import HotReload.Proofs.Source.Encodings
import HotReload.Proofs.Diagnostic.Crash
import HotReload.Proofs.Generation.AllOrNothing
import HotReload.Proofs.Generation.Shuffled
import HotReload.Proofs.Session.Baseline
import HotReload.Proofs.Generation.Claims
import HotReload.Proofs.Source.Described
import HotReload.Proofs.Source.Enclosing
import HotReload.Proofs.Verdict.BodyEdits
import HotReload.Proofs.Verdict.LeadingComments
import HotReload.Proofs.Verdict.Ignored
import HotReload.Proofs.Verdict.Undo
import HotReload.Proofs.Marking.Sequence
import HotReload.Proofs.Marking.Neighbours
import HotReload.Proofs.Source.Faults
import HotReload.Proofs.Text.Splices
import HotReload.Proofs.Change.Geometry
import HotReload.Proofs.Verdict.Patchable
import HotReload.Proofs.Diagnostic.Splitting
import HotReload.Proofs.Verdict.Workers
import HotReload.Proofs.Verdict.StrayText
import HotReload.Proofs.Marking.History
import HotReload.Proofs.Marking.MarkerLines
import HotReload.Proofs.Text.Shift
