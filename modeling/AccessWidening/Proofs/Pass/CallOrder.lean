import Mathlib.Data.List.Nodup
import AccessWidening.Proofs.Pass.Accounting
import AccessWidening.Proofs.Pass.Visit

/-!
The order of the calls does not matter, as long as no two of them are for the same class name.

A visit uses the bucket of its own class and no other, so what a caller sees of it does not depend
on the calls for other classes before it. Two such visits commute but for the order in which stale
rules are recorded, and the end of a pass lists those in increasing order.
-/

namespace AccessWidening

/-- What a caller sees of a visit: the class afterwards, the result and the events. -/
def Visit.outcome (visit : Visit) : ClassDecl × Except Fault Bool × List Event :=
  (visit.decl, visit.result, visit.events)

namespace RuleSet

variable (rules : RuleSet) {owner other : String}

theorem withoutOwner_comm (a b : String) :
    (rules.withoutOwner a).withoutOwner b = (rules.withoutOwner b).withoutOwner a := by
  apply ext_level?
  intro e
  simp only [level?_withoutOwner]
  by_cases ha : e.owner = a <;> simp [ha]

theorem bucket?_withoutOwner (hother : owner ≠ other) :
    (rules.withoutOwner owner).bucket? other = rules.bucket? other := by
  apply bucket?_congr
  rintro e rfl
  rw [level?_withoutOwner, if_neg hother.symm]

end RuleSet

namespace Pass

/-- Whether two passes differ at most in the order in which stale rules were recorded. -/
structure Alike (pass other : Pass) : Prop where
  pending_eq : pass.pending = other.pending
  policy_eq : pass.policy = other.policy
  stale_perm : pass.stale.Perm other.stale
  tally_eq : pass.tally = other.tally

variable {pass other : Pass} {decl a b : ClassDecl} {bucket : Bucket}
  {calls others : List ClassDecl} {name : String}

/-! ## One visit -/

/-- A visit leaves the buckets of other classes alone. -/
theorem bucket?_transform (pass : Pass) (hname : decl.name ≠ name) :
    (pass.transform decl).pass.pending.bucket? name = pass.pending.bucket? name := by
  by_cases htakes : ∃ bucket, pass.Takes decl bucket
  · obtain ⟨bucket, htakes⟩ := htakes
    rw [htakes.transform_eq, pending_consume, RuleSet.bucket?_withoutOwner _ hname]
  · rw [pass_transform_of_not_takes htakes]

/-- What a caller sees of a visit is a matter of the policy and of the bucket of the class. -/
theorem outcome_transform_congr (hpolicy : pass.policy = other.policy)
    (hbucket : pass.pending.bucket? decl.name = other.pending.bucket? decl.name) :
    (pass.transform decl).outcome = (other.transform decl).outcome := by
  cases hfound : other.pending.bucket? decl.name with
  | none =>
      rw [transform_of_bucket?_eq_none hfound,
        transform_of_bucket?_eq_none (hbucket.trans hfound)]
      rfl
  | some bucket =>
      have hpass := hbucket.trans hfound
      cases hambiguity : bucket.ambiguity? decl with
      | some field =>
          rw [transform_of_ambiguity?_eq_some hfound hambiguity,
            transform_of_ambiguity?_eq_some hpass hambiguity]
          rfl
      | none =>
          rw [transform_of_ambiguity?_eq_none hfound hambiguity,
            transform_of_ambiguity?_eq_none hpass hambiguity]
          simp only [Visit.outcome, decl_consume, result_consume, events_consume, hpolicy]

/-! ## Passes that are alike -/

namespace Alike

theorem refl (pass : Pass) : pass.Alike pass := ⟨rfl, rfl, .refl _, rfl⟩

theorem trans {third : Pass} (h : pass.Alike other) (h' : other.Alike third) : pass.Alike third :=
  ⟨h.pending_eq.trans h'.pending_eq, h.policy_eq.trans h'.policy_eq,
    h.stale_perm.trans h'.stale_perm, h.tally_eq.trans h'.tally_eq⟩

theorem consume (h : pass.Alike other) (bucket : Bucket) (decl : ClassDecl) :
    (pass.consume bucket decl).pass.Alike (other.consume bucket decl).pass where
  pending_eq := by rw [pending_consume, pending_consume, h.pending_eq]
  policy_eq := by rw [policy_consume, policy_consume, h.policy_eq]
  stale_perm := by
    rw [stale_consume, stale_consume, h.policy_eq]
    split
    · exact h.stale_perm
    · exact h.stale_perm.append_right _
  tally_eq := by rw [tally_consume, tally_consume, h.tally_eq]

/-- The same call keeps passes alike. -/
theorem transform (h : pass.Alike other) (decl : ClassDecl) :
    (pass.transform decl).pass.Alike (other.transform decl).pass := by
  have hsame (bucket : Bucket) : pass.Takes decl bucket ↔ other.Takes decl bucket :=
    takes_congr (by rw [h.pending_eq])
  by_cases htakes : ∃ bucket, pass.Takes decl bucket
  · obtain ⟨bucket, htakes⟩ := htakes
    rw [htakes.transform_eq, ((hsame bucket).mp htakes).transform_eq]
    exact h.consume bucket decl
  · have htakes' : ¬ ∃ bucket, other.Takes decl bucket := by simpa only [hsame] using htakes
    rw [pass_transform_of_not_takes htakes, pass_transform_of_not_takes htakes']
    exact h

theorem after (h : pass.Alike other) (calls : List ClassDecl) :
    (pass.after calls).Alike (other.after calls) := by
  induction calls generalizing pass other with
  | nil => exact h
  | cons decl rest ih => exact ih (h.transform decl)

/-- Passes that are alike end alike: unmatched rules are listed in increasing order. -/
theorem finish_eq (h : pass.Alike other) : pass.finish = other.finish := by
  have hreport : pass.report = other.report := by
    have hlisting : listing (pass.stale ++ pass.pending.elements) =
        listing (other.stale ++ other.pending.elements) := by
      apply listing_eq_iff.mpr
      intro e
      rw [List.mem_append, List.mem_append, h.stale_perm.mem_iff, h.pending_eq]
    unfold report StaleRules.ofList
    simp only [h.tally_eq, hlisting]
  unfold finish
  rw [hreport, h.policy_eq]

end Alike

/-! ## Calls for different classes -/

/-- Taking two buckets in turn and taking them the other way round is alike. -/
theorem alike_consume_consume (pass : Pass) (bucketA bucketB : Bucket) (a b : ClassDecl) :
    ((pass.consume bucketA a).pass.consume bucketB b).pass.Alike
      ((pass.consume bucketB b).pass.consume bucketA a).pass where
  pending_eq := by simp only [pending_consume, RuleSet.withoutOwner_comm _ a.name]
  policy_eq := by simp only [policy_consume]
  stale_perm := by
    simp only [stale_consume, policy_consume]
    split
    · exact .refl _
    · rw [List.append_assoc, List.append_assoc]
      exact List.perm_append_comm.append_left _
  tally_eq := by simp only [tally_consume, Tally.add_right_comm _ (bucketA.gain a)]

/-- Calls for classes of different names commute. -/
theorem alike_transform_transform (pass : Pass) (hnames : a.name ≠ b.name) :
    ((pass.transform a).pass.transform b).pass.Alike
      ((pass.transform b).pass.transform a).pass := by
  have hthen (bucket : Bucket) : (pass.transform a).pass.Takes b bucket ↔ pass.Takes b bucket :=
    takes_congr (pass.bucket?_transform hnames)
  have hthen' (bucket : Bucket) : (pass.transform b).pass.Takes a bucket ↔ pass.Takes a bucket :=
    takes_congr (pass.bucket?_transform hnames.symm)
  by_cases ha : ∃ bucket, pass.Takes a bucket
  · obtain ⟨bucketA, ha⟩ := ha
    by_cases hb : ∃ bucket, pass.Takes b bucket
    · obtain ⟨bucketB, hb⟩ := hb
      rw [((hthen bucketB).mpr hb).transform_eq, ((hthen' bucketA).mpr ha).transform_eq,
        ha.transform_eq, hb.transform_eq]
      exact alike_consume_consume pass bucketA bucketB a b
    · have hb' : ¬ ∃ bucket, (pass.transform a).pass.Takes b bucket := by
        simpa only [hthen] using hb
      rw [pass_transform_of_not_takes hb', pass_transform_of_not_takes hb]
      exact .refl _
  · have ha' : ¬ ∃ bucket, (pass.transform b).pass.Takes a bucket := by
      simpa only [hthen'] using ha
    rw [pass_transform_of_not_takes ha, pass_transform_of_not_takes ha']
    exact .refl _

/-- Runs over the same calls in another order are alike, if the calls are for different classes. -/
theorem alike_after_of_perm (hperm : calls.Perm others)
    (hdistinct : (calls.map ClassDecl.name).Nodup) (pass : Pass) :
    (pass.after calls).Alike (pass.after others) := by
  induction hperm generalizing pass with
  | nil => exact .refl pass
  | cons decl _ ih => exact ih (List.nodup_cons.mp hdistinct).2 (pass.transform decl).pass
  | swap a b rest =>
      have hnames : b.name ≠ a.name := by
        intro hsame
        simp [hsame] at hdistinct
      exact (pass.alike_transform_transform hnames).after rest
  | trans hfirst _ ih ih' =>
      have hmiddle := (hfirst.map ClassDecl.name).nodup_iff.mp hdistinct
      exact (ih hdistinct pass).trans (ih' hmiddle pass)

/-- Calls for other classes make no difference to what a caller sees of a visit. -/
theorem outcome_transform_after (pass : Pass) (hothers : ∀ call ∈ calls, call.name ≠ decl.name) :
    ((pass.after calls).transform decl).outcome = (pass.transform decl).outcome := by
  induction calls generalizing pass with
  | nil => rfl
  | cons call rest ih =>
      obtain ⟨hcall, hrest⟩ := List.forall_mem_cons.mp hothers
      exact (ih (pass.transform call).pass hrest).trans
        (outcome_transform_congr (pass.policy_transform call) (pass.bucket?_transform hcall))

/-- Among calls for different classes, each visit looks as if it were the first one. -/
theorem outcome_visits (hdistinct : (calls.map ClassDecl.name).Nodup) (pass : Pass) (i : Nat) :
    (pass.visits calls)[i]?.map Visit.outcome =
      calls[i]?.map fun decl => (pass.transform decl).outcome := by
  rw [getElem?_visits, Option.map_map]
  cases hdecl : calls[i]? with
  | none => rfl
  | some decl =>
      obtain ⟨hi, rfl⟩ := List.getElem?_eq_some_iff.mp hdecl
      refine congrArg some (pass.outcome_transform_after ?_)
      intro call hcall hsame
      obtain ⟨j, hj, rfl⟩ := List.mem_take_iff_getElem.mp hcall
      have hi' : i < (calls.map ClassDecl.name).length := by simpa using hi
      have hj' : j < (calls.map ClassDecl.name).length := by omega
      have hnames : (calls.map ClassDecl.name)[j] = (calls.map ClassDecl.name)[i] := by
        rw [List.getElem_map, List.getElem_map]
        exact hsame
      have hindex : j = i := hdistinct.getElem_inj_iff.mp hnames
      omega

end Pass

namespace RuleSet

open Pass

/-- The order of calls does not matter where each is for a class of its own name. In any two orders
of the same classes, each class gets the same visit: it is the same class afterwards, and the visit
has the same result, fault or not, and the same events. And the pass ends the same way, with the
same report or with the same stale rules. -/
theorem class_order_irrelevant (rules : RuleSet) (policy : StalePolicy)
    {classes others : List ClassDecl} (hperm : classes.Perm others)
    (hdistinct : (classes.map ClassDecl.name).Nodup) :
    (∀ i j : Nat, classes[i]? = others[j]? →
      ((start rules policy).visits classes)[i]?.map Visit.outcome =
        ((start rules policy).visits others)[j]?.map Visit.outcome) ∧
    ((start rules policy).after classes).finish = ((start rules policy).after others).finish := by
  constructor
  · intro i j hsame
    have hdistinct' := (hperm.map ClassDecl.name).nodup_iff.mp hdistinct
    rw [outcome_visits hdistinct, outcome_visits hdistinct', hsame]
  · exact (alike_after_of_perm hperm hdistinct (start rules policy)).finish_eq

/-- Three classes in two orders, and a policy to fail fast: one of them is ambiguous and another one
leaves a rule over, and neither keeps the third from being widened. -/
theorem class_order_irrelevant_of_faults :
    let rules := empty.requestAll [(.classItself "A", ⟨.pub, .unstated⟩),
      (.field "B" "x" none, ⟨.pub, .unstated⟩), (.method "C" "m" "()V", ⟨.pub, .unstated⟩)]
    let a : ClassDecl := ⟨"A", ⟨0⟩, [], []⟩
    let b : ClassDecl := ⟨"B", ⟨0⟩, [⟨"x", "I", ⟨2⟩⟩, ⟨"x", "J", ⟨2⟩⟩], []⟩
    let c : ClassDecl := ⟨"C", ⟨0⟩, [], []⟩
    [a, b, c].Perm [c, b, a] ∧ ([a, b, c].map ClassDecl.name).Nodup ∧
      ((start rules .failFast).visits [a, b, c])[0]?.map Visit.outcome =
        ((start rules .failFast).visits [c, b, a])[2]?.map Visit.outcome ∧
      ((start rules .failFast).after [a, b, c]).finish =
        ((start rules .failFast).after [c, b, a]).finish ∧
      ((start rules .failFast).after [c, b, a]).finish.result =
        .error (.ofList [.field "B" "x" none]) := by
  intro rules a b c
  have hperm : [a, b, c].Perm [c, b, a] := List.reverse_perm [c, b, a]
  have hdistinct : ([a, b, c].map ClassDecl.name).Nodup := by decide
  obtain ⟨hvisits, hfinish⟩ := class_order_irrelevant rules .failFast hperm hdistinct
  exact ⟨hperm, hdistinct, hvisits 0 2 rfl, hfinish, by decide⟩

end RuleSet

end AccessWidening
