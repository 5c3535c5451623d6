import AccessWidening.Proofs.Access.Twice
import AccessWidening.Proofs.Declaration.Shape
import AccessWidening.Proofs.Pass.Accounting
import AccessWidening.Proofs.Pass.Visit

/-!
A whole pass over classes that a pass with the same rules left behind. It goes the same way, to the
same fault or the same report, and changes nothing.

Each visit of the second pass meets the class that the visit of the first one made. The two passes
hold the same rules at that point and differ only in what they counted as changed, so it is one
equation about one visit that carries the run.
-/

namespace AccessWidening

/-- The same account of a pass that changed nothing. -/
def Tally.withoutChanges (tally : Tally) : Tally :=
  { tally with classesChanged := 0, membersChanged := 0 }

def Report.withoutChanges (report : Report) : Report :=
  { report with tally := report.tally.withoutChanges }

/-- A walk over members that it made finds the same rules for them, and changes none. -/
theorem widenMembers_again {take : RuleSet → Member → Option Level × RuleSet}
    (htake : ∀ rules m request, take rules (m.widen request) = take rules m) (pending : RuleSet)
    (members : List Member) :
    widenMembers take pending (widenMembers take pending members).members =
      { widenMembers take pending members with changed := 0 } := by
  induction members generalizing pending with
  | nil => rfl
  | cons m rest ih => simp [widenMembers, htake, ih, Member.widen_widen]

theorem RuleSet.takeField_widen (rules : RuleSet) (owner : String) (m : Member)
    (request : Option Level) :
    rules.takeField owner (m.widen request) = rules.takeField owner m := by
  cases request <;> rfl

theorem RuleSet.takeMethod_widen (rules : RuleSet) (owner : String) (m : Member)
    (request : Option Level) :
    rules.takeMethod owner (m.widen request) = rules.takeMethod owner m := by
  cases request <;> rfl

namespace Bucket

theorem walkFields_again (bucket : Bucket) (fields : List Member) :
    bucket.walkFields (bucket.walkFields fields).members =
      { bucket.walkFields fields with changed := 0 } := by
  unfold walkFields
  cases bucket.wantsFieldChange with
  | false => rfl
  | true =>
      exact widenMembers_again
        (fun rules m request => rules.takeField_widen bucket.owner m request) _ fields

theorem walkMethods_again (bucket : Bucket) (rules : RuleSet) (methods : List Member) :
    bucket.walkMethods rules (bucket.walkMethods rules methods).members =
      { bucket.walkMethods rules methods with changed := 0 } := by
  unfold walkMethods
  cases bucket.wantsMethodChange with
  | false => rfl
  | true =>
      exact widenMembers_again
        (fun rules m request => rules.takeMethod_widen bucket.owner m request) rules methods

/-- A bucket that is applied to what it made leaves the same rules, and changes nothing. -/
theorem apply_again (bucket : Bucket) (decl : ClassDecl) :
    bucket.apply (bucket.apply decl).decl = { bucket.apply decl with membersChanged := 0 } := by
  unfold apply
  cases bucket.accessChange <;> simp [walkFields_again, walkMethods_again]

theorem not_changes_apply (bucket : Bucket) (decl : ClassDecl) :
    ¬ bucket.Changes (bucket.apply decl).decl := by
  unfold Changes
  rw [apply_again]
  simp

theorem gain_apply (bucket : Bucket) (decl : ClassDecl) :
    bucket.gain (bucket.apply decl).decl = (bucket.gain decl).withoutChanges := by
  unfold gain
  rw [if_neg (bucket.not_changes_apply decl), apply_again]
  rfl

end Bucket

namespace Pass

def withoutChanges (pass : Pass) : Pass := { pass with tally := pass.tally.withoutChanges }

/-- Taking a bucket again, for the class that it made, goes the same way without a change. -/
theorem consume_again (pass : Pass) (bucket : Bucket) (decl : ClassDecl) :
    pass.withoutChanges.consume bucket (bucket.apply decl).decl =
      ⟨(pass.consume bucket decl).pass.withoutChanges, (bucket.apply decl).decl,
        (pass.consume bucket decl).result.map fun _ => false, []⟩ := by
  apply Visit.ext
  · apply Pass.ext
    · exact (pending_consume _ _ _).trans (pending_consume pass bucket decl).symm
    · exact (policy_consume _ _ _).trans (policy_consume pass bucket decl).symm
    · rw [stale_consume, Bucket.apply_again]
      exact (stale_consume pass bucket decl).symm
    · rw [tally_consume, Bucket.gain_apply]
      exact (congrArg Tally.withoutChanges (tally_consume pass bucket decl)).symm
  · rw [decl_consume, Bucket.apply_again]
  · simp only [result_consume, Bucket.apply_again, Bucket.not_changes_apply, decide_false]
    by_cases hfails : pass.policy = .failFast ∧ (bucket.apply decl).leftover.members ≠ []
    · rw [if_pos hfails]
      exact if_pos hfails
    · rw [if_neg hfails]
      exact if_neg hfails
  · rw [events_consume, if_neg (Bucket.not_changes_apply bucket decl)]

/-- A visit of the class that a visit made goes the same way, and changes nothing. -/
theorem transform_again (pass : Pass) (decl : ClassDecl) :
    pass.withoutChanges.transform (pass.transform decl).decl =
      ⟨(pass.transform decl).pass.withoutChanges, (pass.transform decl).decl,
        (pass.transform decl).result.map fun _ => false, []⟩ := by
  cases hbucket : pass.pending.bucket? decl.name with
  | none =>
      rw [transform_of_bucket?_eq_none hbucket]
      exact transform_of_bucket?_eq_none hbucket
  | some bucket =>
      cases hfound : bucket.ambiguity? decl with
      | some field =>
          rw [transform_of_ambiguity?_eq_some hbucket hfound]
          exact transform_of_ambiguity?_eq_some hbucket hfound
      | none =>
          rw [transform_of_ambiguity?_eq_none hbucket hfound, decl_consume]
          have hshape := sameShape_apply bucket decl
          rw [hshape.1] at hbucket
          rw [hshape.ambiguity?_eq] at hfound
          have hagain : pass.withoutChanges.transform (bucket.apply decl).decl =
              pass.withoutChanges.consume bucket (bucket.apply decl).decl :=
            transform_of_ambiguity?_eq_none hbucket hfound
          exact hagain.trans (consume_again pass bucket decl)

theorem finish_withoutChanges (pass : Pass) :
    pass.withoutChanges.finish.result = pass.finish.result.map Report.withoutChanges := by
  by_cases hpolicy : pass.policy = .warn
  · rw [finish_of_warn hpolicy]
    exact finish_of_warn hpolicy
  · rw [finish_of_ne_warn hpolicy]
    have hagain : pass.withoutChanges.finish.result =
        if pass.report.unmatched.unmatched = [] then .ok pass.withoutChanges.report
        else .error pass.report.unmatched := finish_of_ne_warn hpolicy
    rw [hagain]
    split <;> rfl

/-- A whole pass over the classes that it made goes the same way, and changes nothing. -/
theorem transformAll_again (pass : Pass) (classes : List ClassDecl) :
    (pass.withoutChanges.transformAll (pass.transformAll classes).classes).classes =
        (pass.transformAll classes).classes ∧
      (pass.withoutChanges.transformAll (pass.transformAll classes).classes).result =
        (pass.transformAll classes).result.map Report.withoutChanges := by
  induction classes generalizing pass with
  | nil =>
      refine ⟨rfl, ?_⟩
      simp only [transformAll, finish_withoutChanges]
      cases pass.finish.result <;> rfl
  | cons decl rest ih =>
      have hvisit := transform_again pass decl
      cases hresult : (pass.transform decl).result with
      | error fault =>
          -- Both passes stop here, and what follows is untouched by either.
          rw [hresult] at hvisit
          simp only [transformAll, hresult, hvisit]
          exact ⟨rfl, rfl⟩
      | ok changed =>
          obtain ⟨hclasses, hrest⟩ := ih (pass.transform decl).pass
          rw [hresult] at hvisit
          simpa only [transformAll, hresult, hvisit, Except.map, hclasses, true_and] using hrest

end Pass

namespace RuleSet

/-- Applying rules a second time, to the classes that the first time left behind, changes no class.
It ends in the same fault if the first one failed, whether with a class or at the end, and otherwise
in the same report but for the numbers of changes, which are zero. -/
theorem second_run_changes_nothing (rules : RuleSet) (policy : StalePolicy)
    (classes : List ClassDecl) :
    let first := rules.transformAll policy classes
    let second := rules.transformAll policy first.classes
    second.classes = first.classes ∧
      second.result = first.result.map Report.withoutChanges :=
  Pass.transformAll_again (Pass.start rules policy) classes

end RuleSet

end AccessWidening
