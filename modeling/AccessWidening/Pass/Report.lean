import AccessWidening.Event
import AccessWidening.Stale

/-!
Reports: what a pass did, in numbers, and which rules it left unmatched.
-/

namespace AccessWidening

structure Report where
  tally : Tally
  unmatched : StaleRules
  deriving DecidableEq

namespace Report

def isClean (report : Report) : Bool := report.unmatched.unmatched.isEmpty

def summary (report : Report) : String :=
  let elements := report.unmatched.unmatched
  "visited: " ++ toString report.tally.classesVisited ++
    ", changed: " ++ toString report.tally.classesChanged ++ " classes / " ++
    toString report.tally.membersChanged ++ " members, unmatched: " ++ toString elements.length ++
    (if elements.isEmpty then "" else " [" ++ Element.listText elements ++ "]")

end Report

end AccessWidening
