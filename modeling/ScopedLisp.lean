import ScopedLisp.Main
import ScopedLisp.Proofs.Evaluation.Completeness
import ScopedLisp.Proofs.Printing.RoundTrip
import ScopedLisp.Proofs.Reading.Balance
import ScopedLisp.Value.Equality
import ScopedLisp.Proofs.Scopes.Growth
import ScopedLisp.Proofs.Simulation.Agreement
import ScopedLisp.Proofs.Simulation.Evaluation
import ScopedLisp.Proofs.Scopes.WellFormed
import ScopedLisp.Proofs.Scopes.Reachable
import ScopedLisp.Proofs.Pairing.Basic
import ScopedLisp.Proofs.Pairing.Simulation
import ScopedLisp.Proofs.Pairing.Inclusion
import ScopedLisp.Proofs.Scoping.UnusedBinding
import ScopedLisp.Proofs.Scoping.LocalBinding
import ScopedLisp.Proofs.Sessions.Isolation
import ScopedLisp.Proofs.Simulation.Discipline
import ScopedLisp.Proofs.Values.Datum
import ScopedLisp.Proofs.Printing.OneLine
import ScopedLisp.Proofs.Sessions.Provenance
import ScopedLisp.Proofs.Sessions.Names
import ScopedLisp.Proofs.Shell.Lines
import ScopedLisp.Proofs.Shell.Transcript
import ScopedLisp.Proofs.Shell.Framing
import ScopedLisp.Proofs.Scopes.Region
import ScopedLisp.Proofs.Scopes.Footprint
import ScopedLisp.Proofs.Scoping.Purity
import ScopedLisp.Proofs.Scopes.Lookup
import ScopedLisp.Proofs.Forms.Shape
import ScopedLisp.Proofs.Reading.Spacing
import ScopedLisp.Proofs.Forms.Faults
import ScopedLisp.Proofs.Pairing.Composition
import ScopedLisp.Proofs.Scoping.ParallelBinding
import ScopedLisp.Proofs.Reading.Resuming
import ScopedLisp.Proofs.Reading.Literals
import ScopedLisp.Proofs.Scopes.Parameters
import ScopedLisp.Proofs.Evaluation.Termination
import ScopedLisp.Proofs.Values.Equality
import ScopedLisp.Proofs.Builtins.Arguments
import ScopedLisp.Proofs.Scoping.QuotedNames
