import AccessWidening.Proofs.Declaration.Requested
import AccessWidening.Proofs.Pass.CallOrder
import AccessWidening.Proofs.Pass.Counters

/-!
One call of a pass, exactly: what becomes of the class, and what of every part of the state.

The state is any state, reached or not. Either there are no rules for the class and nothing happens,
or the class takes its bucket, and the bucket alone says what becomes of it.
-/

namespace AccessWidening

/-- What it means for a visit that a class took its bucket. -/
structure Visit.Applies (pass : Pass) (bucket : Bucket) (decl : ClassDecl) (visit : Visit) :
    Prop where
  /-- Every access word is widened by the level that is requested for it. -/
  decl_eq : visit.decl = bucket.requested decl
  /-- Names and descriptors stay, and so do the number of members and their order. -/
  sameShape : decl.SameShape visit.decl
  /-- The bucket is no longer pending, and every other bucket is as it was. -/
  bucket?_eq : ∀ name, visit.pass.pending.bucket? name =
    if name = decl.name then none else pass.pending.bucket? name
  /-- The rules for members that the class does not have are recorded, unless the policy is to
  report them at once. -/
  stale_eq : visit.pass.stale =
    if pass.policy = .failFast then pass.stale else pass.stale ++ bucket.missed decl
  /-- One more class was visited, and the class and its members are counted if they differ. -/
  tally_eq : visit.pass.tally =
    pass.tally.add ⟨1, if visit.decl ≠ decl then 1 else 0, decl.changedMembers visit.decl⟩
  policy_eq : visit.pass.policy = pass.policy
  /-- The call tells whether the class differs, or fails over the rules that it reports at once. -/
  result_eq : visit.result =
    if pass.policy = .failFast ∧ bucket.missed decl ≠ [] then
      .error (.stale (.ofList (bucket.missed decl)))
    else .ok (decide (visit.decl ≠ decl))

namespace RuleSet

theorem bucket?_withoutOwner_eq (rules : RuleSet) (owner name : String) :
    (rules.withoutOwner owner).bucket? name =
      if name = owner then none else rules.bucket? name := by
  split
  · next hname =>
    rw [bucket?_eq_none_iff, hname]
    intro e he
    exact (mem_elements_withoutOwner.mp he).2
  · next hname => exact bucket?_withoutOwner rules (Ne.symm hname)

end RuleSet

namespace Pass

variable {pass : Pass} {decl : ClassDecl} {bucket : Bucket}

/-- A class takes its bucket exactly if the bucket leaves no field name of it open. -/
theorem takes_iff : pass.Takes decl bucket ↔
    pass.pending.bucket? decl.name = some bucket ∧ ∀ name, ¬ bucket.LeavesOpen decl name := by
  refine and_congr_right fun hbucket => ?_
  rw [RuleSet.ambiguity?_eq_none_iff hbucket, RuleSet.ambiguousOn_iff_leavesOpen hbucket,
    not_exists]

theorem Takes.applies (h : pass.Takes decl bucket) :
    (pass.transform decl).Applies pass bucket decl := by
  have hbucket := h.1
  have hclear : ¬ pass.pending.AmbiguousOn decl :=
    (RuleSet.ambiguity?_eq_none_iff hbucket).mp h.2
  rw [h.transform_eq]
  constructor
  case decl_eq => rw [decl_consume, decl_apply_eq_requested hbucket hclear]
  case sameShape =>
    rw [decl_consume]
    exact sameShape_apply bucket decl
  case bucket?_eq =>
    intro name
    rw [pending_consume, RuleSet.bucket?_withoutOwner_eq]
  case stale_eq => rw [stale_consume, members_leftover_apply hbucket]
  case tally_eq =>
    rw [tally_consume, decl_consume]
    unfold Bucket.gain
    simp only [Bucket.changes_iff, Bucket.membersChanged_apply]
  case policy_eq => exact policy_consume pass bucket decl
  case result_eq =>
    rw [result_consume, decl_consume, members_leftover_apply hbucket]
    simp only [Bucket.changes_iff]

/-- One call does exactly this, in any state. Without rules for the class nothing happens. With a
bucket that leaves no field name of the class open, the class takes the bucket: it becomes what the
bucket requests, the rest of the bucket is stale, and all other rules stay pending. -/
theorem class_becomes_what_its_bucket_requests (pass : Pass) (decl : ClassDecl) :
    (pass.pending.bucket? decl.name = none → pass.transform decl = ⟨pass, decl, .ok false, []⟩) ∧
    ∀ bucket, pass.pending.bucket? decl.name = some bucket →
      (∀ name, ¬ bucket.LeavesOpen decl name) →
      (pass.transform decl).Applies pass bucket decl := by
  refine ⟨transform_of_bucket?_eq_none, ?_⟩
  intro bucket hbucket hclear
  exact (takes_iff.mpr ⟨hbucket, hclear⟩).applies

/-- A class with a field and a method that are declared twice. The exact rule for a repeated member
reaches the first of the two, the field `y` is widened by two rules at once, and a rule for a field
that is not there is stale. A class of another name finds no rule. -/
theorem class_becomes_requested_of_repeated_members :
    let rules := RuleSet.empty.requestAll [(.classItself "A", ⟨.pub, .dropFinal⟩),
      (.field "A" "x" (some "I"), ⟨.prot, .unstated⟩),
      (.field "A" "y" (some "J"), ⟨.prot, .unstated⟩),
      (.field "A" "y" none, ⟨.package, .dropFinal⟩), (.field "A" "z" none, ⟨.pub, .unstated⟩),
      (.method "A" "m" "()V", ⟨.pub, .unstated⟩), (.classItself "B", ⟨.pub, .unstated⟩)]
    let pass : Pass := ⟨rules, .failAtEnd, [.classItself "C"], ⟨3, 1, 4⟩⟩
    let decl : ClassDecl := ⟨"A", ⟨0x30⟩,
      [⟨"x", "I", ⟨2⟩⟩, ⟨"x", "I", ⟨2⟩⟩, ⟨"y", "J", ⟨0x12⟩⟩],
      [⟨"m", "()V", ⟨2⟩⟩, ⟨"m", "()V", ⟨2⟩⟩]⟩
    let visit := pass.transform decl
    visit.decl = ⟨"A", ⟨0x21⟩, [⟨"x", "I", ⟨4⟩⟩, ⟨"x", "I", ⟨2⟩⟩, ⟨"y", "J", ⟨4⟩⟩],
      [⟨"m", "()V", ⟨1⟩⟩, ⟨"m", "()V", ⟨2⟩⟩]⟩ ∧
    visit.pass.stale = [.classItself "C", .field "A" "z" none] ∧
    visit.pass.tally = ⟨4, 2, 7⟩ ∧
    visit.pass.pending.bucket? "A" = none ∧
    visit.pass.pending.bucket? "B" = pass.pending.bucket? "B" ∧
    pass.transform ⟨"D", ⟨0⟩, [], []⟩ = ⟨pass, ⟨"D", ⟨0⟩, [], []⟩, .ok false, []⟩ := by
  intro rules pass decl visit
  let bucket : Bucket := (pass.pending.bucket? "A").get (by decide)
  have htakes : pass.Takes decl bucket := ⟨(Option.some_get _).symm, by decide⟩
  obtain ⟨hbucket, hclear⟩ := takes_iff.mp htakes
  have happlies := (class_becomes_what_its_bucket_requests pass decl).2 bucket hbucket hclear
  have hnothing := (class_becomes_what_its_bucket_requests pass ⟨"D", ⟨0⟩, [], []⟩).1 (by decide)
  refine ⟨?_, ?_, ?_, ?_, ?_, hnothing⟩
  · rw [happlies.decl_eq]
    decide
  · rw [happlies.stale_eq]
    decide
  · rw [happlies.tally_eq, happlies.decl_eq]
    decide
  · rw [happlies.bucket?_eq, if_pos rfl]
  · rw [happlies.bucket?_eq, if_neg (by decide)]

end Pass

end AccessWidening
