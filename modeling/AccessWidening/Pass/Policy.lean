/-!
Stale policies: when a pass reports the rules that found no target.
-/

namespace AccessWidening

/-- When stale rules are reported as an error: at the end of a pass, with the class they belong to,
or never. -/
inductive StalePolicy where
  | failAtEnd
  | failFast
  | warn
  deriving DecidableEq

namespace StalePolicy

def all : List StalePolicy := [failAtEnd, failFast, warn]

def name : StalePolicy → String
  | failAtEnd => "fail-at-end"
  | failFast => "fail-fast"
  | warn => "warn"

def ofName? (name : String) : Option StalePolicy := all.find? (·.name = name)

end StalePolicy

end AccessWidening
