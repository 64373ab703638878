import ActionChain.Bench.Rehearsal
import ActionChain.Bench.Session
import ActionChain.Main
import ActionChain.Proofs.Execution
import ActionChain.Proofs.History
import ActionChain.Proofs.Accounting
import ActionChain.Proofs.Grammar
import ActionChain.Proofs.Scanning
import ActionChain.Proofs.Lexemes
import ActionChain.Proofs.Members
import ActionChain.Proofs.Parsing
import ActionChain.Proofs.Rounding
import ActionChain.Proofs.NumberText
import ActionChain.Proofs.Printing
import ActionChain.Proofs.Faults
import ActionChain.Proofs.Building
import ActionChain.Proofs.Binding
import ActionChain.Proofs.Actions
import ActionChain.Proofs.Lookahead
import ActionChain.Proofs.Viability
import ActionChain.Proofs.ErrorPlace
import ActionChain.Proofs.Notes
import ActionChain.Proofs.Incidents
import ActionChain.Proofs.Sleeping
import ActionChain.Proofs.Waits
import ActionChain.Proofs.Fates
import ActionChain.Proofs.Checking
import ActionChain.Proofs.Dispatching
import ActionChain.Proofs.Handing
import ActionChain.Proofs.Effects
import ActionChain.Proofs.Reprinting
import ActionChain.Proofs.Ordering
import ActionChain.Proofs.Layering
import ActionChain.Proofs.Alike
import ActionChain.Proofs.Interleaving
import ActionChain.Proofs.Residue
import ActionChain.Proofs.Suspense
import ActionChain.Proofs.Submissions
import ActionChain.Proofs.Proceeding
import ActionChain.Proofs.Warnings
import ActionChain.Proofs.Locations
import ActionChain.Proofs.Navigation
import ActionChain.Proofs.Logging
import ActionChain.Proofs.Spellings
import ActionChain.Proofs.Posting
import ActionChain.Proofs.Reporting
import ActionChain.Proofs.ErrorReport
import ActionChain.Proofs.Invariants
import ActionChain.Proofs.ClassLists
import ActionChain.Proofs.ClassNames
import ActionChain.Proofs.Overlays
import ActionChain.Proofs.Saving
import ActionChain.Proofs.ClassOrder
import ActionChain.Proofs.Milliseconds
import ActionChain.Proofs.Signatures
import ActionChain.Proofs.NormalForms
import ActionChain.Proofs.Surrogates
import ActionChain.Proofs.Renderings
import ActionChain.Proofs.Touches
import ActionChain.Proofs.Decorators
