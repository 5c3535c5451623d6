import AccessWidening.RuleSet.Basic

/-!
Stale rules: rules whose target was not found.

They are always listed in increasing order and without repetition, whatever order they were noticed
in, so a list of stale rules says nothing but which rules are stale.
-/

namespace AccessWidening

/-- The elements of rules that found no target. -/
structure StaleRules where
  unmatched : List Element
  increasing : Increasing unmatched
  deriving DecidableEq

namespace StaleRules

def ofList (elements : List Element) : StaleRules :=
  ⟨listing elements, increasing_listing elements⟩

theorem unmatched_ofList {elements : List Element} (h : Increasing elements) :
    (ofList elements).unmatched = elements := h.listing_eq

def message (stale : StaleRules) : String :=
  "stale access transformer rules (" ++ toString stale.unmatched.length ++ " unmatched): " ++
    Element.listText stale.unmatched

end StaleRules

namespace RuleSet

def ensureClear (rules : RuleSet) : Except StaleRules Unit :=
  if rules.isEmpty then .ok () else .error (StaleRules.ofList rules.elements)

theorem isEmpty_iff {rules : RuleSet} : rules.isEmpty = true ↔ rules.elements = [] := by
  rw [isEmpty, List.isEmpty_iff, elements, List.map_eq_nil_iff]

theorem ensureClear_eq_ok {rules : RuleSet} (h : rules.elements = []) :
    rules.ensureClear = .ok () := if_pos (isEmpty_iff.mpr h)

theorem ensureClear_eq_error {rules : RuleSet} (h : rules.elements ≠ []) :
    rules.ensureClear = .error (StaleRules.ofList rules.elements) :=
  if_neg fun hempty => h (isEmpty_iff.mp hempty)

end RuleSet

end AccessWidening
