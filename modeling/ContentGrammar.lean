import ContentGrammar.Main
import ContentGrammar.Proofs.Document.Arena
import ContentGrammar.Proofs.Document.Case
import ContentGrammar.Proofs.Document.Renumbering
import ContentGrammar.Proofs.Model.Author
import ContentGrammar.Proofs.Model.Case
import ContentGrammar.Proofs.Model.Defect
import ContentGrammar.Proofs.Model.Meaning
import ContentGrammar.Proofs.Model.Slots
import ContentGrammar.Proofs.Category.DepthFirst
import ContentGrammar.Proofs.Category.Resolution
import ContentGrammar.Proofs.Selector.Acceptance
import ContentGrammar.Proofs.Selector.Reading
import ContentGrammar.Proofs.Selector.Scanning
import ContentGrammar.Proofs.Selector.Selection
import ContentGrammar.Proofs.Selector.Shape
import ContentGrammar.Proofs.Pattern.Attribution
import ContentGrammar.Proofs.Pattern.Chart
import ContentGrammar.Proofs.Pattern.Greedy
import ContentGrammar.Proofs.Pattern.Guard
import ContentGrammar.Proofs.Pattern.Marks
import ContentGrammar.Proofs.Pattern.Turns
import ContentGrammar.Proofs.Exclusion.Breaches
import ContentGrammar.Proofs.Spec.Case
import ContentGrammar.Proofs.Spec.Faces
import ContentGrammar.Proofs.Spec.Loaded
import ContentGrammar.Proofs.Spec.References
import ContentGrammar.Proofs.Spec.Requests
import ContentGrammar.Proofs.Spec.Slots
import ContentGrammar.Proofs.Validation.Blanks
import ContentGrammar.Proofs.Validation.Case
import ContentGrammar.Proofs.Validation.Depth
import ContentGrammar.Proofs.Validation.Form
import ContentGrammar.Proofs.Validation.Growth
import ContentGrammar.Proofs.Validation.Locality
import ContentGrammar.Proofs.Validation.Marks
import ContentGrammar.Proofs.Validation.Namesakes
import ContentGrammar.Proofs.Validation.Workers
import ContentGrammar.Proofs.Scan.Accounting
import ContentGrammar.Proofs.Scan.Configured
import ContentGrammar.Proofs.Scan.Discovery
