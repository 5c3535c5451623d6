import AccessWidening.Pass.Ambiguity
import AccessWidening.Pass.Policy
import AccessWidening.Pass.Report
import AccessWidening.Pass.Widening

/-!
Passes: applying a rule set to classes, one class after another.

The first class of a name that is not ambiguous takes the whole bucket of that name. Its member
rules that name no member are stale; the policy decides only when that is reported. A pass ends with
a report, or with all the rules that are known to be stale by then.
-/

namespace AccessWidening

/-- The state of a pass: the rules whose class did not come yet, and what happened so far. -/
structure Pass where
  pending : RuleSet
  policy : StalePolicy
  stale : List Element
  tally : Tally
  deriving DecidableEq

inductive Fault where
  | stale (rules : StaleRules)
  | ambiguous (field : AmbiguousField)
  deriving DecidableEq

def Fault.message : Fault → String
  | stale rules => rules.message
  | ambiguous field => field.message

/-- What comes of transforming one class: the pass and the class afterwards, whether the class
changed or what went wrong, and the events on the way. -/
structure Visit where
  pass : Pass
  decl : ClassDecl
  result : Except Fault Bool
  events : List Event

structure Closing where
  result : Except StaleRules Report
  events : List Event

namespace Pass

def start (rules : RuleSet) (policy : StalePolicy) : Pass := ⟨rules, policy, [], ⟨0, 0, 0⟩⟩

/-- Applies to a class the bucket that was found for it. -/
def consume (pass : Pass) (bucket : Bucket) (decl : ClassDecl) : Visit :=
  let widened := bucket.apply decl
  let changed := widened.decl.access ≠ decl.access ∨ widened.membersChanged > 0
  let tally : Tally :=
    { classesVisited := pass.tally.classesVisited + 1
      classesChanged := pass.tally.classesChanged + if changed then 1 else 0
      membersChanged := pass.tally.membersChanged + widened.membersChanged }
  let events := if changed then
      [.widened decl.name decl.access widened.decl.access widened.membersChanged]
    else []
  let after := { pass with pending := pass.pending.withoutOwner decl.name, tally }
  match widened.leftover.ensureClear with
  | .ok () => ⟨after, widened.decl, .ok changed, events⟩
  | .error stale =>
    if pass.policy = .failFast then ⟨after, widened.decl, .error (.stale stale), events⟩
    else ⟨{ after with stale := pass.stale ++ stale.unmatched }, widened.decl, .ok changed, events⟩

/-- Transforms one class. A class that no pending rule concerns, and a class for which a rule is
ambiguous, leave the pass as it is. -/
def transform (pass : Pass) (decl : ClassDecl) : Visit :=
  match pass.pending.bucket? decl.name with
  | none => ⟨pass, decl, .ok false, []⟩
  | some bucket =>
    match bucket.ambiguity? decl with
    | some field => ⟨pass, decl, .error (.ambiguous field), []⟩
    | none => pass.consume bucket decl

/-- The account of a pass as it stands: the stale rules met so far and those whose class never came
are unmatched. -/
def report (pass : Pass) : Report := ⟨pass.tally, .ofList (pass.stale ++ pass.pending.elements)⟩

/-- Ends a pass. Unmatched rules are an error unless the policy is to warn of them. -/
def finish (pass : Pass) : Closing :=
  let report := pass.report
  let elements := report.unmatched.unmatched
  if pass.policy ≠ .warn ∧ elements ≠ [] then ⟨.error report.unmatched, []⟩
  else ⟨.ok report, elements.map .unmatched ++ [.finished report.tally elements.length]⟩

end Pass

structure Transformation where
  result : Except Fault Report
  classes : List ClassDecl
  events : List Event

/-- Transforms classes in their order and finishes the pass. The first fault ends it, and the
classes after that one stay as they are. -/
def Pass.transformAll (pass : Pass) : List ClassDecl → Transformation
  | [] =>
    let closing := pass.finish
    ⟨closing.result.mapError .stale, [], closing.events⟩
  | decl :: rest =>
    let visit := pass.transform decl
    match visit.result with
    | .error fault => ⟨.error fault, visit.decl :: rest, visit.events⟩
    | .ok _ =>
      let remaining := visit.pass.transformAll rest
      ⟨remaining.result, visit.decl :: remaining.classes, visit.events ++ remaining.events⟩

def RuleSet.transformAll (rules : RuleSet) (policy : StalePolicy) (classes : List ClassDecl) :
    Transformation :=
  (Pass.start rules policy).transformAll classes

end AccessWidening
