import RawJson.Main
import RawJson.Options.Reader
import RawJson.Proofs.Extent
import RawJson.Proofs.Layout
import RawJson.Proofs.Walk
import RawJson.Proofs.Grammar
import RawJson.Proofs.Canonical
import RawJson.Proofs.Extension
import RawJson.Proofs.Truncation
import RawJson.Proofs.Elements
import RawJson.Proofs.Descent
import RawJson.Proofs.Delimitation
import RawJson.Proofs.Composition
import RawJson.Proofs.Checked.Run
import RawJson.Proofs.Checked.Scan
import RawJson.Proofs.Checked.Element
import RawJson.Proofs.Checked.Lookup
import RawJson.Proofs.Checked.Path
import RawJson.Proofs.Checked.Safety
import RawJson.Proofs.Selection
import RawJson.Proofs.Measure
import RawJson.Proofs.Enumeration
import RawJson.Proofs.Membership
import RawJson.Proofs.Reslicing
import RawJson.Proofs.Failure
import RawJson.Proofs.Flaw
import RawJson.Proofs.Boundary
import RawJson.Proofs.Budget
import RawJson.Proofs.Window
import RawJson.Proofs.Assembly
import RawJson.Proofs.Address
import RawJson.Proofs.RoundTrip
import RawJson.Proofs.Iteration
import RawJson.Proofs.Outline
import RawJson.Proofs.Nesting
import RawJson.Proofs.Backslashes
