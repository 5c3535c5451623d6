import AccessWidening.Digest.Blake3
import AccessWidening.RuleSet.Basic

/-!
The canonical text of a rule set: one line for each entry, in increasing order, in the form of a rule
line. Its hash is the fingerprint of the set.
-/

namespace AccessWidening

/-- The rule line of an entry, with the line feed that ends it. -/
def entryLine (entry : Element × Level) : String := entry.2.text ++ " " ++ entry.1.text ++ "\n"

namespace RuleSet

def canonicalText (rules : RuleSet) : String := String.join (rules.entries.map entryLine)

def fingerprint (rules : RuleSet) : Bytes := Blake3.hash (Bytes.ofString rules.canonicalText)

end RuleSet

end AccessWidening
