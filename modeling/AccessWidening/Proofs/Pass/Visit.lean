import AccessWidening.Proofs.Pass.Step

/-!
What a visit depends on. The class after it, its result and its events are a matter of the bucket
that the class finds and of the policy. What it does to the pass is to take the bucket, to record
what is left of it, and to add to the tally.
-/

namespace AccessWidening

attribute [ext] Tally Pass Visit

theorem Tally.add_right_comm (a b c : Tally) : (a.add b).add c = (a.add c).add b := by
  ext <;> exact Nat.add_right_comm _ _ _

namespace Pass

/-- Whether a class takes a bucket at its visit: it finds the bucket, and no rule is ambiguous. -/
def Takes (pass : Pass) (decl : ClassDecl) (bucket : Bucket) : Prop :=
  pass.pending.bucket? decl.name = some bucket ∧ bucket.ambiguity? decl = none

variable {pass other : Pass} {decl : ClassDecl} {bucket : Bucket}

theorem transform_of_ambiguity?_eq_some {field : AmbiguousField}
    (hbucket : pass.pending.bucket? decl.name = some bucket)
    (hfound : bucket.ambiguity? decl = some field) :
    pass.transform decl = ⟨pass, decl, .error (.ambiguous field), []⟩ := by
  unfold transform
  rw [hbucket]
  simp only [hfound]

theorem transform_of_ambiguity?_eq_none (hbucket : pass.pending.bucket? decl.name = some bucket)
    (hquiet : bucket.ambiguity? decl = none) : pass.transform decl = pass.consume bucket decl := by
  unfold transform
  rw [hbucket]
  simp only [hquiet]

/-- Whether a class takes a bucket is a matter of the bucket that it finds. -/
theorem takes_congr (hbucket : pass.pending.bucket? decl.name = other.pending.bucket? decl.name) :
    pass.Takes decl bucket ↔ other.Takes decl bucket := by
  unfold Takes
  rw [hbucket]

theorem Takes.transform_eq (h : pass.Takes decl bucket) :
    pass.transform decl = pass.consume bucket decl :=
  transform_of_ambiguity?_eq_none h.1 h.2

/-- A class that takes nothing stays as it is, and so does the pass. -/
theorem transform_of_not_takes (h : ¬ ∃ bucket, pass.Takes decl bucket) :
    ∃ result, pass.transform decl = ⟨pass, decl, result, []⟩ ∧
      (result = .ok false ∨ ∃ field, result = .error (.ambiguous field)) := by
  cases hbucket : pass.pending.bucket? decl.name with
  | none => exact ⟨_, transform_of_bucket?_eq_none hbucket, .inl rfl⟩
  | some bucket =>
      cases hfound : bucket.ambiguity? decl with
      | some field =>
          exact ⟨_, transform_of_ambiguity?_eq_some hbucket hfound, .inr ⟨field, rfl⟩⟩
      | none => exact absurd ⟨bucket, hbucket, hfound⟩ h

/-- A class either takes its bucket or stays as it is, and so does the pass. -/
theorem transform_cases (pass : Pass) (decl : ClassDecl) :
    (∃ bucket, pass.Takes decl bucket ∧ pass.transform decl = pass.consume bucket decl) ∨
    ((¬ ∃ bucket, pass.Takes decl bucket) ∧
      ∃ result, pass.transform decl = ⟨pass, decl, result, []⟩ ∧
        (result = .ok false ∨ ∃ field, result = .error (.ambiguous field))) := by
  by_cases htakes : ∃ bucket, pass.Takes decl bucket
  · obtain ⟨bucket, hbucket⟩ := htakes
    exact .inl ⟨bucket, hbucket, hbucket.transform_eq⟩
  · exact .inr ⟨htakes, transform_of_not_takes htakes⟩

theorem policy_transform (pass : Pass) (decl : ClassDecl) :
    (pass.transform decl).pass.policy = pass.policy := by
  rcases pass.transform_cases decl with ⟨bucket, _, htransform⟩ | ⟨_, _, htransform, _⟩
  · rw [htransform, policy_consume]
  · rw [htransform]

theorem pass_transform_of_not_takes (h : ¬ ∃ bucket, pass.Takes decl bucket) :
    (pass.transform decl).pass = pass := by
  obtain ⟨result, htransform, _⟩ := transform_of_not_takes h
  rw [htransform]

end Pass

end AccessWidening
