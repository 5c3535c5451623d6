import Mathlib.Data.List.Forall2
import AccessWidening.Proofs.Declaration.Shape
import AccessWidening.Proofs.Pass.FirstNamed
import AccessWidening.Proofs.Pass.Preservation
import AccessWidening.Proofs.Pass.Visit

/-!
Whole passes that only warn of stale rules, said of the rules and the classes alone.

Such a pass fails on an ambiguous class and on nothing else. It gives a report exactly if the rules
are ambiguous for no class that is the first of its name. Then the first classes take the rules,
each place is widened by all levels that are requested for it, and a rule is unmatched unless the
first class of its owner's name declares what it is for.
-/

namespace AccessWidening

open Pass

namespace ClassDecl

instance (decl : ClassDecl) : (place : Place) → Decidable (decl.IsFirst place)
  | .classItself => inferInstanceAs (Decidable True)
  | .field i => inferInstanceAs (Decidable (∀ m ∈ decl.fields[i]?,
      ∀ earlier ∈ decl.fields.take i, earlier.signature ≠ m.signature))
  | .method i => inferInstanceAs (Decidable (∀ m ∈ decl.methods[i]?,
      ∀ earlier ∈ decl.methods.take i, earlier.signature ≠ m.signature))

end ClassDecl

namespace RuleSet

/-- The level that is applied at a place of a class: that of all rules which name the place, joined,
if the class is the first of its name and the place the first of its signature. -/
def appliedAt (rules : RuleSet) (earlier : List ClassDecl) (decl : ClassDecl) (place : Place) :
    Option Level :=
  if (∀ other ∈ earlier, other.name ≠ decl.name) ∧ decl.IsFirst place then
    Level.joinAll (rules.requestsFor (decl.namesAt place))
  else none

variable {rules : RuleSet} {classes : List ClassDecl} {pass : Pass} {before : ClassDecl} {i : Nat}

namespace Unhindered

/-- What a visit comes to, if no first class of its name is ambiguous: it succeeds, and each word of
the class is widened by the level that is applied there. -/
theorem visit (h : rules.Unhindered classes) (hdecl : classes[i]? = some before)
    (hfollows : Follows rules .warn (classes.take i) pass) :
    (pass.transform before).Succeeds ∧ ∀ place, (pass.transform before).decl.access? place =
      (before.access? place).map (·.widenBy (rules.appliedAt (classes.take i) before place)) := by
  have hfree := h.not_taken_iff before.name i
  rcases hfollows.transform_cases before with ⟨hnone, htransform⟩ |
    ⟨hfirst, _, _, _, _, hambiguous, _⟩ | ⟨hfirst, bucket, hbucket, hclear, htransform⟩
  · rw [htransform]
    refine ⟨⟨false, rfl⟩, fun place => ?_⟩
    -- A first class finds no rule here only if there is none for it.
    have happlied : rules.appliedAt (classes.take i) before place = none := by
      unfold appliedAt
      split
      · next hserved =>
        rw [Level.joinAll_eq_none_iff, requestsFor_eq_nil_iff]
        intro e he
        rw [level?_eq_none_iff]
        intro hrule
        exact hfree.mpr hserved.1 (hnone e hrule (ClassDecl.owner_of_mem_namesAt he))
      · rfl
    rw [happlied]
    exact Option.map_id'.symm
  · exact absurd hambiguous (h before.name i before ⟨hdecl, rfl, hfree.mp hfirst⟩)
  · rw [htransform, decl_consume]
    constructor
    · refine ⟨decide (bucket.Changes before), ?_⟩
      rw [result_consume, hfollows.policy_eq, if_neg (by simp)]
    · intro place
      unfold appliedAt
      by_cases hplace : before.IsFirst place
      · rw [if_pos ⟨hfree.mp hfirst, hplace⟩]
        exact access?_apply_of_isFirst hbucket hclear hplace
      · rw [if_neg fun hserved => hplace hserved.2]
        exact (access?_apply_of_not_isFirst hbucket hplace).trans Option.map_id'.symm

theorem succeeds (h : rules.Unhindered classes) :
    ∀ visit ∈ (start rules .warn).visits classes, visit.Succeeds := by
  intro visit hvisit
  obtain ⟨i, hi⟩ := List.mem_iff_getElem?.mp hvisit
  obtain ⟨decl, pass, hdecl, hfollows, rfl⟩ := exists_follows_of_visit hi
  exact (h.visit hdecl hfollows).1

/-- What a whole pass makes of a class. -/
theorem exists_class_after (h : rules.Unhindered classes) (hdecl : classes[i]? = some before) :
    ∃ after, (rules.transformAll .warn classes).classes[i]? = some after ∧
      before.SameShape after ∧ ∀ place, after.access? place =
        (before.access? place).map (·.widenBy (rules.appliedAt (classes.take i) before place)) := by
  have hfollows := follows_after rules .warn (classes.take i)
  refine ⟨_, ?_, (hfollows.preserved_transform before).1, (h.visit hdecl hfollows).2⟩
  unfold transformAll
  rw [classes_transformAll h.succeeds, List.getElem?_map, visits_eq_some hdecl]
  rfl

theorem sameShape_classes (h : rules.Unhindered classes) :
    List.Forall₂ ClassDecl.SameShape classes (rules.transformAll .warn classes).classes := by
  apply List.forall₂_iff_get.mpr
  constructor
  · unfold transformAll
    rw [classes_transformAll h.succeeds, List.length_map, length_visits]
  · intro i hclasses hafter
    obtain ⟨after, hget, hshape, _⟩ :=
      h.exists_class_after (List.getElem?_eq_getElem hclasses)
    obtain rfl := Option.some.inj ((List.getElem?_eq_getElem hafter).symm.trans hget)
    exact hshape

/-- Without the hindrance of an ambiguous class, a rule is unmatched unless the first class of its
owner's name declares what it is for. -/
theorem mem_unmatched_iff (h : rules.Unhindered classes) {e : Element} :
    e ∈ ((start rules .warn).after classes).report.unmatched.unmatched ↔
      e ∈ rules.elements ∧ ¬ ∃ i decl, FirstNamed classes e.owner i decl ∧ decl.Declares e := by
  rw [(follows_after rules .warn classes).mem_unmatched_iff, taken_iff_exists_taker]
  simp only [h.taker_iff]
  apply and_congr_right
  intro _
  constructor
  · rintro (hnone | ⟨_, i, decl, hfirst, hnot⟩) ⟨j, other, hother, hdeclares⟩
    · exact hnone ⟨j, other, hother⟩
    · obtain ⟨_, rfl⟩ := hfirst.unique hother
      exact hnot hdeclares
  · intro hnone
    by_cases hfirst : ∃ i decl, FirstNamed classes e.owner i decl
    · obtain ⟨i, decl, hfirst⟩ := hfirst
      exact .inr ⟨by simp, i, decl, hfirst, fun hdeclares => hnone ⟨i, decl, hfirst, hdeclares⟩⟩
    · exact .inl hfirst

end Unhindered

/-- A pass that only warns gives its report unless a first class of some name is ambiguous. -/
theorem result_transformAll_warn_iff {report : Report} :
    (rules.transformAll .warn classes).result = .ok report ↔
      rules.Unhindered classes ∧ ((start rules .warn).after classes).report = report := by
  have hpolicy := (follows_after rules .warn classes).policy_eq
  unfold transformAll
  rw [result_transformAll_iff, finish_of_warn hpolicy, Except.ok.injEq]
  apply and_congr_left
  intro _
  exact ⟨unhindered_of_succeeds, Unhindered.succeeds⟩

end RuleSet

end AccessWidening
