import AccessWidening.Proofs.Pass.Accounting

/-!
Whole passes: a run over a list of classes that the first fault ends.

A whole pass is a run whose visits all succeed, or it fails. It is clean exactly if every rule is
matched and no visit fails.
-/

namespace AccessWidening

def Visit.Succeeds (visit : Visit) : Prop := ∃ changed, visit.result = .ok changed

/-- Whether a whole pass came to its end and found a target for every rule. -/
def Transformation.Clean (outcome : Transformation) : Prop :=
  ∃ report, outcome.result = .ok report ∧ report.isClean = true

namespace Pass

/-- A whole pass gives a report if every visit of the run succeeds and the end does not fail. -/
theorem result_transformAll_iff (pass : Pass) (classes : List ClassDecl) (report : Report) :
    (pass.transformAll classes).result = .ok report ↔
      (∀ visit ∈ pass.visits classes, visit.Succeeds) ∧
        (pass.after classes).finish.result = .ok report := by
  induction classes generalizing pass with
  | nil =>
      unfold transformAll visits after
      cases hresult : pass.finish.result <;> simp [hresult, Except.mapError]
  | cons decl rest ih =>
      have hafter : pass.after (decl :: rest) = (pass.transform decl).pass.after rest := rfl
      unfold transformAll visits
      dsimp only
      cases hresult : (pass.transform decl).result with
      | error fault => simp [Visit.Succeeds, hresult]
      | ok changed =>
          have hfirst : (pass.transform decl).Succeeds := ⟨changed, hresult⟩
          rw [hafter, List.forall_mem_cons, and_iff_right hfirst]
          exact ih (pass.transform decl).pass

/-- Without a fault, a whole pass leaves the classes as the visits of the run do. -/
theorem classes_transformAll {pass : Pass} {classes : List ClassDecl}
    (hall : ∀ visit ∈ pass.visits classes, visit.Succeeds) :
    (pass.transformAll classes).classes = (pass.visits classes).map Visit.decl := by
  induction classes generalizing pass with
  | nil => rfl
  | cons decl rest ih =>
      obtain ⟨⟨changed, hresult⟩, hrest⟩ := List.forall_mem_cons.mp hall
      unfold transformAll visits
      simp only [hresult, ih hrest, List.map_cons]

theorem finish_clean_iff (pass : Pass) :
    (∃ report, pass.finish.result = .ok report ∧ report.isClean = true) ↔
      pass.report.unmatched.unmatched = [] := by
  constructor
  · rintro ⟨report, hresult, hclean⟩
    obtain rfl := (unmatched_finish pass).1 report hresult
    exact List.isEmpty_iff.mp hclean
  · intro hnone
    refine ⟨pass.report, ?_, List.isEmpty_iff.mpr hnone⟩
    by_cases hpolicy : pass.policy = .warn
    · exact finish_of_warn hpolicy
    · rw [finish_of_ne_warn hpolicy, if_pos hnone]

end Pass

namespace RuleSet

open Pass

variable {rules : RuleSet} {policy : StalePolicy} {classes : List ClassDecl}

/-- A whole pass is clean exactly if no visit fails and every rule is matched. -/
theorem clean_transformAll_iff :
    (rules.transformAll policy classes).Clean ↔
      (∀ visit ∈ (start rules policy).visits classes, visit.Succeeds) ∧
        ∀ e ∈ rules.elements, rules.Matched classes e := by
  have hfollows := follows_after rules policy classes
  have hlists := lists_finish_iff ((start rules policy).after classes)
  rw [hfollows.policy_eq] at hlists
  have hclean : (rules.transformAll policy classes).Clean ↔
      (∀ visit ∈ (start rules policy).visits classes, visit.Succeeds) ∧
        ((start rules policy).after classes).report.unmatched.unmatched = [] := by
    rw [← finish_clean_iff]
    unfold Transformation.Clean transformAll
    simp only [result_transformAll_iff, and_assoc, exists_and_left]
  rw [hclean]
  apply and_congr_right
  intro hall
  constructor
  · intro hnone e he
    rcases exactlyOne_outcome policy classes he with
      ⟨hmatched, _⟩ | ⟨_, hreported, _⟩ | ⟨_, _, hlisted⟩
    · exact hmatched
    · obtain ⟨_, i, _, visit, _, hvisit, stale, hresult, _⟩ := hreported
      obtain ⟨changed, hok⟩ := hall visit (List.mem_of_getElem? hvisit)
      rw [hresult] at hok
      cases hok
    · rw [hlists, hnone] at hlisted
      cases hlisted
  · intro hmatched
    apply List.eq_nil_iff_forall_not_mem.mpr
    intro e hmem
    have he : e ∈ rules.elements := (hfollows.mem_unmatched_iff.mp hmem).1
    rcases exactlyOne_outcome policy classes he with
      ⟨_, _, hnot⟩ | ⟨hnot, _⟩ | ⟨hnot, _⟩
    · exact hnot ((hlists e).mpr hmem)
    · exact hnot (hmatched e he)
    · exact hnot (hmatched e he)

end RuleSet

end AccessWidening
