import ManySorted.Value.Order
import ManySorted.Term.Same
import ManySorted.Fold.Probe
import ManySorted.Store.Unfold
import ManySorted.Sorts.ArraySort
import ManySorted.Sorts.OptionalSort
import ManySorted.Sorts.RecordSort
import ManySorted.Sorts.EnumSort
import ManySorted.Sorts.TableSort
import ManySorted.Main
import ManySorted.Proofs.Languages.Family
import ManySorted.Proofs.Languages.Safety
import ManySorted.Proofs.Sorts.BuiltIns
import ManySorted.Proofs.Sorts.Derived
import ManySorted.Proofs.Languages.Soundness
import ManySorted.Proofs.Stores.Tables
import ManySorted.Proofs.Terms.Parts
import ManySorted.Proofs.Stores.Adding
import ManySorted.Proofs.Stores.Rebuilding
import ManySorted.Proofs.Stores.Session
import ManySorted.Proofs.Stores.Preservation
import ManySorted.Proofs.Stores.Representation
import ManySorted.Proofs.Stores.Transparency
import ManySorted.Proofs.Terms.Same
import ManySorted.Proofs.Sorts.Names
import ManySorted.Proofs.Stores.Agreement
import ManySorted.Proofs.Languages.Checking
import ManySorted.Proofs.Terms.Variables
import ManySorted.Proofs.Languages.Gate
import ManySorted.Proofs.Languages.Joining
import ManySorted.Proofs.Stores.Calls
import ManySorted.Proofs.Stores.Memos
import ManySorted.Proofs.Terms.Equality
import ManySorted.Proofs.Stores.Identity
import ManySorted.Proofs.Terms.Comparison
import ManySorted.Proofs.Terms.Sizes
import ManySorted.Proofs.Languages.Resolving
import ManySorted.Proofs.Languages.Substituting
import ManySorted.Proofs.Languages.Extending
import ManySorted.Proofs.Languages.History
import ManySorted.Proofs.Languages.Canonical
import ManySorted.Proofs.Languages.Comparing
import ManySorted.Proofs.Languages.Closure
import ManySorted.Proofs.Stores.Sweeping
import ManySorted.Proofs.Stores.Reaching
import ManySorted.Proofs.Terms.Asking
import ManySorted.Proofs.Stores.Sharing
import ManySorted.Proofs.Stores.RoundTrip
import ManySorted.Proofs.Terms.Subterms
import ManySorted.Proofs.Stores.Appending
import ManySorted.Proofs.Stores.Matching
import ManySorted.Proofs.Stores.Contents
import ManySorted.Proofs.Terms.Distinct
import ManySorted.Proofs.Stores.Sizes
import ManySorted.Proofs.Sorts.Defaults
import ManySorted.Proofs.Languages.Bounds
import ManySorted.Proofs.Sorts.Faults
import ManySorted.Proofs.Languages.Depending
import ManySorted.Proofs.Languages.Applying
import ManySorted.Proofs.Languages.Standard
import ManySorted.Proofs.Languages.Expressions
import ManySorted.Proofs.Languages.Meaning
import ManySorted.Proofs.Languages.Deriving
import ManySorted.Proofs.Languages.Defaults
import ManySorted.Proofs.Terms.Sequences
import ManySorted.Proofs.Languages.Equating
import ManySorted.Proofs.Languages.Choosing
import ManySorted.Proofs.Languages.Projecting
import ManySorted.Proofs.Languages.Listing
import ManySorted.Proofs.Languages.Wrapping
import ManySorted.Proofs.Terms.Positions
import ManySorted.Proofs.Terms.Texts
import ManySorted.Proofs.Stores.Naming
import ManySorted.Proofs.Stores.Substituting
import ManySorted.Proofs.Languages.Membership
import ManySorted.Proofs.Values.Ordering
import ManySorted.Proofs.Sorts.Numbering
import ManySorted.Proofs.Sorts.Factories
