import AccessWidening.Pass.Basic
import AccessWidening.Proofs.Declaration.Widened

/-!
One call of a pass, case by case.

A class either finds no pending rule, or finds an ambiguous one, or takes its bucket. The first two
leave the pass as it is. What is said about runs is said from these three cases.
-/

namespace AccessWidening

def Tally.add (a b : Tally) : Tally where
  classesVisited := a.classesVisited + b.classesVisited
  classesChanged := a.classesChanged + b.classesChanged
  membersChanged := a.membersChanged + b.membersChanged

namespace Bucket

/-- Whether a bucket changes an access word of a class. -/
def Changes (bucket : Bucket) (decl : ClassDecl) : Prop :=
  (bucket.apply decl).decl.access ≠ decl.access ∨ (bucket.apply decl).membersChanged > 0

instance (bucket : Bucket) (decl : ClassDecl) : Decidable (bucket.Changes decl) :=
  inferInstanceAs (Decidable (_ ∨ _))

/-- What a class that takes a bucket adds to the tally. -/
def gain (bucket : Bucket) (decl : ClassDecl) : Tally where
  classesVisited := 1
  classesChanged := if bucket.Changes decl then 1 else 0
  membersChanged := (bucket.apply decl).membersChanged

end Bucket

namespace Pass

theorem transform_of_bucket?_eq_none {pass : Pass} {decl : ClassDecl}
    (hnone : pass.pending.bucket? decl.name = none) :
    pass.transform decl = ⟨pass, decl, .ok false, []⟩ := by
  unfold transform
  rw [hnone]

theorem transform_of_ambiguous {pass : Pass} {decl : ClassDecl}
    (hambiguous : pass.pending.AmbiguousOn decl) :
    ∃ found bucket, pass.pending.bucket? decl.name = some bucket ∧
      bucket.ambiguity? decl = some found ∧
      pass.transform decl = ⟨pass, decl, .error (.ambiguous found), []⟩ := by
  cases hbucket : pass.pending.bucket? decl.name with
  | none =>
      obtain ⟨name, hrule, _⟩ := hambiguous
      exact absurd rfl (RuleSet.bucket?_eq_none_iff.mp hbucket _ hrule)
  | some bucket =>
      cases hfound : bucket.ambiguity? decl with
      | none => exact absurd hambiguous ((RuleSet.ambiguity?_eq_none_iff hbucket).mp hfound)
      | some found =>
          refine ⟨found, bucket, rfl, hfound, ?_⟩
          unfold transform
          rw [hbucket]
          simp only [hfound]

theorem transform_of_bucket?_eq_some {pass : Pass} {decl : ClassDecl} {bucket : Bucket}
    (hbucket : pass.pending.bucket? decl.name = some bucket)
    (hclear : ¬ pass.pending.AmbiguousOn decl) :
    pass.transform decl = pass.consume bucket decl := by
  have hquiet := (RuleSet.ambiguity?_eq_none_iff hbucket).mpr hclear
  unfold transform
  rw [hbucket]
  simp only [hquiet]

variable (pass : Pass) (bucket : Bucket) (decl : ClassDecl)

/-- What taking a bucket does, all at once. -/
theorem consume_eq : pass.consume bucket decl =
    { pass :=
        { pending := pass.pending.withoutOwner decl.name
          policy := pass.policy
          stale :=
            if pass.policy = .failFast then pass.stale
            else pass.stale ++ (bucket.apply decl).leftover.members
          tally := pass.tally.add (bucket.gain decl) }
      decl := (bucket.apply decl).decl
      result :=
        if pass.policy = .failFast ∧ (bucket.apply decl).leftover.members ≠ [] then
          .error (.stale (.ofList (bucket.apply decl).leftover.members))
        else .ok (decide (bucket.Changes decl))
      events :=
        if bucket.Changes decl then
          [.widened decl.name decl.access (bucket.apply decl).decl.access
            (bucket.apply decl).membersChanged]
        else [] } := by
  unfold consume
  by_cases hleft : (bucket.apply decl).leftover.members = []
  · simp only [Bucket.ensureClear_eq_ok hleft, hleft, List.append_nil, ite_self, ne_eq,
      not_true_eq_false, and_false, if_false]
    rfl
  · have hlisted := StaleRules.unmatched_ofList (bucket.apply decl).leftover.increasing_members
    simp only [Bucket.ensureClear_eq_error hleft, hlisted]
    by_cases hpolicy : pass.policy = .failFast
    · simp only [hpolicy, hleft, ne_eq, not_false_eq_true, and_true, if_true]
      rfl
    · simp only [hpolicy, false_and, if_false]
      rfl

theorem decl_consume : (pass.consume bucket decl).decl = (bucket.apply decl).decl := by
  rw [consume_eq]

theorem pending_consume :
    (pass.consume bucket decl).pass.pending = pass.pending.withoutOwner decl.name := by
  rw [consume_eq]

theorem policy_consume : (pass.consume bucket decl).pass.policy = pass.policy := by
  rw [consume_eq]

/-- Rules that are left over are recorded unless the policy reports them at once. -/
theorem stale_consume :
    (pass.consume bucket decl).pass.stale =
      if pass.policy = .failFast then pass.stale
      else pass.stale ++ (bucket.apply decl).leftover.members := by
  rw [consume_eq]

theorem tally_consume :
    (pass.consume bucket decl).pass.tally = pass.tally.add (bucket.gain decl) := by
  rw [consume_eq]

theorem result_consume :
    (pass.consume bucket decl).result =
      if pass.policy = .failFast ∧ (bucket.apply decl).leftover.members ≠ [] then
        .error (.stale (.ofList (bucket.apply decl).leftover.members))
      else .ok (decide (bucket.Changes decl)) := by
  rw [consume_eq]

theorem events_consume :
    (pass.consume bucket decl).events =
      if bucket.Changes decl then
        [.widened decl.name decl.access (bucket.apply decl).decl.access
          (bucket.apply decl).membersChanged]
      else [] := by
  rw [consume_eq]

/-- Taking a bucket fails only if rules are left over and the policy reports them at once. -/
theorem result_consume_eq_error_iff {fault : Fault} :
    (pass.consume bucket decl).result = .error fault ↔
      pass.policy = .failFast ∧ (bucket.apply decl).leftover.members ≠ [] ∧
        fault = .stale (.ofList (bucket.apply decl).leftover.members) := by
  rw [result_consume]
  split
  · next h => simp [h, eq_comm]
  · next h =>
    refine iff_of_false (by simp) ?_
    rintro ⟨hpolicy, hleft, _⟩
    exact h ⟨hpolicy, hleft⟩

end Pass

end AccessWidening
