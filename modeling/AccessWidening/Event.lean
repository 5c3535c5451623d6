import AccessWidening.ClassDecl
import AccessWidening.Element.Basic

/-!
Events: what loading and applying rules reports while it happens.
-/

namespace AccessWidening

structure Tally where
  classesVisited : Nat
  classesChanged : Nat
  membersChanged : Nat
  deriving DecidableEq

inductive Severity where
  | debug
  | info
  | warn
  deriving DecidableEq

inductive Event where
  /-- A source was accepted, with this many rules. -/
  | loaded (source : String) (rules : Nat)
  /-- A class was changed: its own flags before and after, and how many members changed. -/
  | widened (className : String) (before after : Flags) (members : Nat)
  /-- A rule found no target. -/
  | unmatched (element : Element)
  /-- A pass ended with this many unmatched rules. -/
  | finished (tally : Tally) (unmatched : Nat)
  deriving DecidableEq

def Event.severity : Event → Severity
  | loaded .. => .debug
  | widened .. => .debug
  | unmatched _ => .warn
  | finished .. => .info

def Event.message : Event → String
  | loaded .. => "loaded access transformer rules"
  | widened .. => "rewrote access modifiers"
  | unmatched _ => "access transformer rule matched nothing"
  | finished .. => "access transformation finished"

end AccessWidening
