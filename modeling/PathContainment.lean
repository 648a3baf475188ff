import PathContainment.Main
import PathContainment.Proofs.Path.Reach
import PathContainment.Proofs.Sequence.Alignment
import PathContainment.Proofs.Sequence.Transitivity
import PathContainment.Proofs.Sequence.NormalForm
import PathContainment.Proofs.Pattern.Set
import PathContainment.Proofs.Pattern.Invariant
import PathContainment.Proofs.Pattern.Undo
import PathContainment.Proofs.Text.Blank
import PathContainment.Proofs.Text.Decimal
import PathContainment.Proofs.Sequence.Balance
import PathContainment.Proofs.Sequence.Grammar
import PathContainment.Proofs.Sequence.Entries
import PathContainment.Proofs.Sequence.Names
import PathContainment.Proofs.Sequence.Numbers
import PathContainment.Proofs.Sequence.Reading
import PathContainment.Proofs.Sequence.Writing
import PathContainment.Proofs.Path.RoundTrip
import PathContainment.Proofs.Element.Members
import PathContainment.Proofs.Sequence.Completeness
import PathContainment.Proofs.IndexRange.Denotation
import PathContainment.Proofs.IndexRange.Progression
import PathContainment.Proofs.Element.Exactness
import PathContainment.Proofs.Element.IndexCount
import PathContainment.Proofs.Pattern.Collision
import PathContainment.Proofs.Path.Editing
import PathContainment.Proofs.Path.NormalForm
import PathContainment.Proofs.Element.Opacity
import PathContainment.Proofs.Pattern.Opacity
import PathContainment.Proofs.Path.Joining
import PathContainment.Proofs.Element.Strict
import PathContainment.Proofs.Path.Strict
import PathContainment.Proofs.Path.Reading
import PathContainment.Proofs.Path.Beginnings
import PathContainment.Proofs.Path.Builder
import PathContainment.Proofs.Pattern.File
import PathContainment.Proofs.CommandLine.Outcome
import PathContainment.Proofs.Machine.EvenlySpaced
import PathContainment.Proofs.Element.Hash
import PathContainment.Proofs.Pattern.Alike
import PathContainment.Proofs.Json.Text
import PathContainment.Proofs.CommandLine.Written
