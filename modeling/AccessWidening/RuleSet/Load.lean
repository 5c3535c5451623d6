import AccessWidening.Event
import AccessWidening.RuleSet.Basic
import AccessWidening.Rule.Source

/-!
Loading rule text into a rule set. A source is loaded as a whole or not at all.
-/

namespace AccessWidening

/-- A rule set after a source was loaded into it, and the number of rules in that source. -/
structure Loaded where
  rules : RuleSet
  source : String
  count : Nat

def Loaded.event (loaded : Loaded) : Event := .loaded loaded.source loaded.count

namespace RuleSet

def addText (rules : RuleSet) (source text : String) : Except SourceError Loaded :=
  (Rule.ofText source text).map fun found =>
    ⟨rules.requestAll (found.map fun rule => (rule.element, rule.level)), source, found.length⟩

def ofText (source text : String) : Except SourceError Loaded := empty.addText source text

/-- Adds the rules of a text that comes from no named source. -/
def addLine (rules : RuleSet) (line : String) : Except SourceError Loaded :=
  rules.addText "<inline>" line

end RuleSet

end AccessWidening
