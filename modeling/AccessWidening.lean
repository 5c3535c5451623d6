import AccessWidening.Access.Flags
import AccessWidening.Access.Level
import AccessWidening.Bytes
import AccessWidening.ClassDecl
import AccessWidening.Digest.Blake3
import AccessWidening.Element.Basic
import AccessWidening.Element.Order
import AccessWidening.Event
import AccessWidening.Folder
import AccessWidening.Listing
import AccessWidening.Pass.Ambiguity
import AccessWidening.Pass.Basic
import AccessWidening.Pass.Policy
import AccessWidening.Pass.Report
import AccessWidening.Pass.Widening
import AccessWidening.Proofs.Access.Justified
import AccessWidening.Proofs.Access.Requests
import AccessWidening.Proofs.Access.Twice
import AccessWidening.Proofs.Access.Widen
import AccessWidening.Proofs.Declaration.Ambiguity
import AccessWidening.Proofs.Declaration.Differences
import AccessWidening.Proofs.Declaration.Place
import AccessWidening.Proofs.Declaration.Requested
import AccessWidening.Proofs.Declaration.Satisfied
import AccessWidening.Proofs.Declaration.Shape
import AccessWidening.Proofs.Declaration.Walk
import AccessWidening.Proofs.Declaration.Widened
import AccessWidening.Proofs.Element.Order
import AccessWidening.Proofs.First
import AccessWidening.Proofs.Listing
import AccessWidening.Proofs.Outcome
import AccessWidening.Proofs.Pass.Accounting
import AccessWidening.Proofs.Pass.AmbiguousCall
import AccessWidening.Proofs.Pass.Applied
import AccessWidening.Proofs.Pass.CallOrder
import AccessWidening.Proofs.Pass.Certification
import AccessWidening.Proofs.Pass.CleanReport
import AccessWidening.Proofs.Pass.Counters
import AccessWidening.Proofs.Pass.ExactCall
import AccessWidening.Proofs.Pass.FirstNamed
import AccessWidening.Proofs.Pass.Policies
import AccessWidening.Proofs.Pass.Preservation
import AccessWidening.Proofs.Pass.Run
import AccessWidening.Proofs.Pass.SecondRun
import AccessWidening.Proofs.Pass.Step
import AccessWidening.Proofs.Pass.Succession
import AccessWidening.Proofs.Pass.Visit
import AccessWidening.Proofs.Pass.WholePass
import AccessWidening.Proofs.Rule.CanonicalLine
import AccessWidening.Proofs.Rule.Descriptors
import AccessWidening.Proofs.Rule.FirstDefect
import AccessWidening.Proofs.Rule.Grammar
import AccessWidening.Proofs.Rule.LineByLine
import AccessWidening.Proofs.Rule.Names
import AccessWidening.Proofs.Rule.Places
import AccessWidening.Proofs.Rule.PrefixFree
import AccessWidening.Proofs.Rule.Reading
import AccessWidening.Proofs.Rule.Requirement
import AccessWidening.Proofs.RuleSet.CanonicalText
import AccessWidening.Proofs.RuleSet.Legible
import AccessWidening.Proofs.RuleSet.Owners
import AccessWidening.Proofs.RuleSet.Requests
import AccessWidening.Proofs.RuleStore.Alike
import AccessWidening.Proofs.RuleStore.ClassRules
import AccessWidening.Proofs.RuleStore.Equality
import AccessWidening.Proofs.RuleStore.Fingerprint
import AccessWidening.Proofs.RuleStore.Loading
import AccessWidening.Proofs.RuleStore.Operations
import AccessWidening.Proofs.RuleStore.Reachable
import AccessWidening.Proofs.RuleStore.Sorting
import AccessWidening.Proofs.RuleStore.Texts
import AccessWidening.Proofs.RuleStore.Traversal
import AccessWidening.Proofs.RuleStore.View
import AccessWidening.Proofs.Snapshot.Acceptance
import AccessWidening.Proofs.Snapshot.Checks
import AccessWidening.Proofs.Snapshot.Damage
import AccessWidening.Proofs.Snapshot.Forms
import AccessWidening.Proofs.Snapshot.Header
import AccessWidening.Proofs.Snapshot.Payload
import AccessWidening.Proofs.Snapshot.Primitives
import AccessWidening.Proofs.Snapshot.Reader
import AccessWidening.Proofs.Snapshot.RoundTrip
import AccessWidening.Proofs.Text.Lines
import AccessWidening.Rule.Defect
import AccessWidening.Rule.Descriptor
import AccessWidening.Rule.Line
import AccessWidening.Rule.Name
import AccessWidening.Rule.Source
import AccessWidening.RuleSet.Basic
import AccessWidening.RuleSet.Bucket
import AccessWidening.RuleSet.Canonical
import AccessWidening.RuleSet.Load
import AccessWidening.RuleStore.Basic
import AccessWidening.RuleStore.ClassRules
import AccessWidening.Snapshot.Frame
import AccessWidening.Snapshot.Payload
import AccessWidening.Snapshot.Wire
import AccessWidening.Stale
import AccessWidening.Text.Blank
