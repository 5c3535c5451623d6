import Mathlib.Algebra.GroupWithZero.Nat
import Mathlib.Data.List.Forall2
import AccessWidening.Proofs.Declaration.Differences
import AccessWidening.Proofs.Pass.Accounting
import AccessWidening.Proofs.Pass.Visit
import AccessWidening.Proofs.RuleSet.Owners

/-!
The numbers of a pass are those that can be observed from outside: how many buckets are gone, how
many calls changed their class, and how many access words of members differ in all.

A call adds to the tally what can be observed of it, also if it fails afterwards, and it says no
more and no less in its events. The run follows by induction on its calls.
-/

namespace AccessWidening

def Event.isRewrite (event : Event) : Bool :=
  event.severity = .debug ∧ event.message = "rewrote access modifiers"

def Event.members : Event → Nat
  | widened _ _ _ members => members
  | _ => 0

/-- What a visit says of its class is true: it changed access words only; if it succeeds, it tells
whether the class differs; and it has an event exactly if the class differs, with the flags of the
class before and after and the number of members whose flags differ. -/
structure Visit.Truthful (decl : ClassDecl) (visit : Visit) : Prop where
  sameShape : decl.SameShape visit.decl
  result_iff : ∀ changed, visit.result = .ok changed → (changed = true ↔ visit.decl ≠ decl)
  events_eq : visit.events =
    if visit.decl = decl then []
    else [.widened decl.name decl.access visit.decl.access (decl.changedMembers visit.decl)]

/-- A bucket changes an access word exactly if the class differs afterwards. -/
theorem Bucket.changes_iff {bucket : Bucket} {decl : ClassDecl} :
    bucket.Changes decl ↔ (bucket.apply decl).decl ≠ decl := by
  rw [(sameShape_apply bucket decl).ne_iff, ← bucket.membersChanged_apply]
  exact Iff.rfl

namespace Pass

/-- Whether a call consumes the bucket of its class: rules for the class are pending before the
call and not after it. -/
def Consumes (pass : Pass) (decl : ClassDecl) : Prop :=
  decl.name ∈ pass.pending.classNames ∧
    decl.name ∉ (pass.transform decl).pass.pending.classNames

instance (pass : Pass) (decl : ClassDecl) : Decidable (pass.Consumes decl) :=
  inferInstanceAs (Decidable (_ ∧ _))

def consumed (pass : Pass) : List ClassDecl → List String
  | [] => []
  | decl :: rest =>
    (if pass.Consumes decl then [decl.name] else []) ++ (pass.transform decl).pass.consumed rest

def observedAt (pass : Pass) (decl : ClassDecl) : Tally where
  classesVisited := if pass.Consumes decl then 1 else 0
  classesChanged := if (pass.transform decl).decl ≠ decl then 1 else 0
  membersChanged := decl.changedMembers (pass.transform decl).decl

/-- What can be observed of a run, in numbers: the buckets consumed, the calls after which the class
differs from before, and all members whose flags differ. -/
def observed (pass : Pass) (calls : List ClassDecl) : Tally where
  classesVisited := (pass.consumed calls).length
  classesChanged := (calls.zip (pass.visits calls)).countP fun call => call.2.decl ≠ call.1
  membersChanged :=
    ((calls.zip (pass.visits calls)).map fun call => call.1.changedMembers call.2.decl).sum

variable {pass : Pass} {decl : ClassDecl}

/-! ## One call -/

theorem truthful_transform (pass : Pass) (decl : ClassDecl) :
    (pass.transform decl).Truthful decl := by
  rcases pass.transform_cases decl with ⟨bucket, _, htransform⟩ | ⟨_, result, htransform, hresult⟩
  · rw [htransform]
    constructor
    case sameShape =>
      rw [decl_consume]
      exact sameShape_apply bucket decl
    case result_iff =>
      intro changed hresult
      rw [result_consume] at hresult
      split at hresult
      · cases hresult
      · obtain rfl := Except.ok.inj hresult
        rw [decide_eq_true_iff, decl_consume]
        exact Bucket.changes_iff
    case events_eq =>
      rw [events_consume, decl_consume, ← bucket.membersChanged_apply]
      simp only [Bucket.changes_iff, ne_eq, ite_not]
  · rw [htransform]
    refine ⟨.refl decl, ?_, (if_pos rfl).symm⟩
    rintro changed hok
    rcases hresult with rfl | ⟨field, rfl⟩
    · obtain rfl := Except.ok.inj hok
      simp
    · cases hok

theorem consumes_iff_takes : pass.Consumes decl ↔ ∃ bucket, pass.Takes decl bucket := by
  constructor
  · rintro ⟨hbefore, hafter⟩
    apply Classical.byContradiction
    intro hnot
    rw [pass_transform_of_not_takes hnot] at hafter
    exact hafter hbefore
  · rintro ⟨bucket, htakes⟩
    refine ⟨RuleSet.mem_classNames_iff_exists_bucket?.mpr ⟨bucket, htakes.1⟩, ?_⟩
    rw [htakes.transform_eq, pending_consume, RuleSet.mem_classNames_withoutOwner]
    rintro ⟨_, hother⟩
    exact hother rfl

/-- A call adds to the tally what can be observed of it. -/
theorem tally_transform (pass : Pass) (decl : ClassDecl) :
    (pass.transform decl).pass.tally = pass.tally.add (pass.observedAt decl) := by
  unfold observedAt
  rcases pass.transform_cases decl with ⟨bucket, htakes, htransform⟩ | ⟨hnot, _, htransform, _⟩
  · rw [if_pos (consumes_iff_takes.mpr ⟨bucket, htakes⟩), htransform, tally_consume, decl_consume]
    unfold Bucket.gain
    simp only [Bucket.changes_iff, Bucket.membersChanged_apply]
  · rw [if_neg (mt consumes_iff_takes.mp hnot), htransform, decl.changedMembers_self]
    simp [Tally.add]

/-- The pending rules lose the class that is consumed, and no other. -/
theorem pending_transform (pass : Pass) (decl : ClassDecl) :
    (pass.transform decl).pass.pending =
      if pass.Consumes decl then pass.pending.withoutOwner decl.name else pass.pending := by
  rcases pass.transform_cases decl with ⟨bucket, htakes, htransform⟩ | ⟨hnot, _, htransform, _⟩
  · rw [if_pos (consumes_iff_takes.mpr ⟨bucket, htakes⟩), htransform, pending_consume]
  · rw [if_neg (mt consumes_iff_takes.mp hnot), htransform]

/-! ## A run -/

/-- A run adds to the tally what can be observed of it. -/
theorem tally_after (pass : Pass) (calls : List ClassDecl) :
    (pass.after calls).tally = pass.tally.add (pass.observed calls) := by
  induction calls generalizing pass with
  | nil => rfl
  | cons decl rest ih =>
      have hcons : pass.observed (decl :: rest) =
          (pass.observedAt decl).add ((pass.transform decl).pass.observed rest) := by
        ext
        · simp only [observed, observedAt, consumed, Tally.add, List.length_append]
          split <;> rfl
        · simp only [observed, observedAt, visits, Tally.add, List.zip_cons_cons, List.countP_cons,
            decide_eq_true_eq]
          exact Nat.add_comm _ _
        · rfl
      rw [after_cons, ih, tally_transform, hcons]
      ext <;> exact Nat.add_assoc _ _ _

theorem mem_pending_of_mem_consumed {calls : List ClassDecl} {name : String}
    (hname : name ∈ pass.consumed calls) : name ∈ pass.pending.classNames := by
  induction calls generalizing pass with
  | nil => cases hname
  | cons decl rest ih =>
      rcases List.mem_append.mp hname with hfirst | hlater
      · split at hfirst
        · next hconsumes =>
          obtain rfl := List.mem_singleton.mp hfirst
          exact hconsumes.1
        · cases hfirst
      · have hpending := ih hlater
        rw [pending_transform] at hpending
        split at hpending
        · exact (RuleSet.mem_classNames_withoutOwner.mp hpending).1
        · exact hpending

/-- No bucket is consumed twice. -/
theorem nodup_consumed (pass : Pass) (calls : List ClassDecl) : (pass.consumed calls).Nodup := by
  induction calls generalizing pass with
  | nil => exact List.nodup_nil
  | cons decl rest ih =>
      unfold consumed
      split
      · next hconsumes =>
        refine List.nodup_cons.mpr ⟨?_, ih _⟩
        intro hlater
        exact hconsumes.2 (mem_pending_of_mem_consumed hlater)
      · exact ih _

/-- The classes consumed and those still pending make up all classes. -/
theorem length_consumed_add (pass : Pass) (calls : List ClassDecl) :
    (pass.consumed calls).length + (pass.after calls).pending.classCount =
      pass.pending.classCount := by
  induction calls generalizing pass with
  | nil => exact Nat.zero_add _
  | cons decl rest ih =>
      have hrest := ih (pass.transform decl).pass
      rw [after_cons, consumed, List.length_append, Nat.add_assoc, hrest, pending_transform]
      split
      · next hconsumes =>
        rw [List.length_singleton, Nat.add_comm]
        exact RuleSet.classCount_withoutOwner hconsumes.1
      · exact Nat.zero_add _

theorem truthful_visits (pass : Pass) (calls : List ClassDecl) :
    List.Forall₂ Visit.Truthful calls (pass.visits calls) := by
  induction calls generalizing pass with
  | nil => exact .nil
  | cons decl rest ih => exact .cons (truthful_transform pass decl) (ih _)

end Pass

/-! ## Events -/

namespace Visit.Truthful

variable {decl : ClassDecl} {visit : Visit}

theorem events_rewrite (h : visit.Truthful decl) : visit.events.filter Event.isRewrite =
    visit.events := by
  rw [List.filter_eq_self, h.events_eq]
  intro event hevent
  split at hevent
  · cases hevent
  · obtain rfl := List.mem_singleton.mp hevent
    rfl

theorem length_events (h : visit.Truthful decl) :
    visit.events.length = if visit.decl ≠ decl then 1 else 0 := by
  rw [h.events_eq, ite_not]
  split <;> rfl

theorem sum_members_events (h : visit.Truthful decl) :
    (visit.events.map Event.members).sum = decl.changedMembers visit.decl := by
  rw [h.events_eq]
  split
  · next hsame =>
    rw [hsame, decl.changedMembers_self]
    rfl
  · exact Nat.add_zero _

end Visit.Truthful

/-- The rewrite events of truthful visits are as many as the classes that differ, and state as many
members as differ in all. -/
theorem rewrites_of_truthful {calls : List ClassDecl} {visits : List Visit}
    (h : List.Forall₂ Visit.Truthful calls visits) :
    let rewrites := (visits.flatMap Visit.events).filter Event.isRewrite
    rewrites.length = (calls.zip visits).countP (fun call => call.2.decl ≠ call.1) ∧
      (rewrites.map Event.members).sum =
        ((calls.zip visits).map fun call => call.1.changedMembers call.2.decl).sum := by
  induction h with
  | nil => exact ⟨rfl, rfl⟩
  | @cons decl visit calls visits hvisit _ ih =>
      obtain ⟨hlength, hsum⟩ := ih
      simp only [List.flatMap_cons, List.filter_append, List.length_append, List.map_append,
        List.sum_append, List.zip_cons_cons, List.countP_cons, List.map_cons, List.sum_cons,
        hvisit.events_rewrite, hvisit.length_events, hvisit.sum_members_events, hlength, hsum,
        decide_eq_true_eq]
      exact ⟨Nat.add_comm _ _, trivial⟩

theorem Pass.eq_report_of_finish {pass : Pass} {report : Report}
    (h : pass.finish.result = .ok report) : report = pass.report := by
  unfold finish at h
  dsimp only at h
  split at h
  · cases h
  · exact (Except.ok.inj h).symm

/-- A pass that warns ends with one warning for each unmatched rule, in their order. -/
theorem Pass.warnings_finish {pass : Pass} (hpolicy : pass.policy = .warn) :
    pass.finish.events.filter (·.severity = .warn) =
      pass.report.unmatched.unmatched.map .unmatched := by
  have hevents : pass.finish.events = pass.report.unmatched.unmatched.map .unmatched ++
      [.finished pass.report.tally pass.report.unmatched.unmatched.length] := by
    unfold finish
    dsimp only
    rw [if_neg fun hfails => hfails.1 hpolicy]
  rw [hevents, List.filter_append, List.filter_map]
  simp [Function.comp_def, Event.severity]

namespace RuleSet

open Pass

/-- The numbers and the events of a run are exact, whatever the policy and with calls that fail. At
any point the tally is what can be observed of the calls: the buckets consumed, none of them twice
and as many as there are classes no longer pending, the calls after which the class differs, and all
members whose flags differ. Every call is truthful about its class, and the rewrite events add up to
the tally. The report at the end has this tally, and with it come as many warnings as it has
unmatched rules, if the policy is to warn. -/
theorem counters_and_events_exact (rules : RuleSet) (policy : StalePolicy)
    (calls : List ClassDecl) :
    let visits := (start rules policy).visits calls
    let pass := (start rules policy).after calls
    let rewrites := (visits.flatMap Visit.events).filter Event.isRewrite
    pass.tally = (start rules policy).observed calls ∧
    ((start rules policy).consumed calls).Nodup ∧
    pass.tally.classesVisited = rules.classCount - pass.pending.classCount ∧
    pass.pending.classCount ≤ rules.classCount ∧
    List.Forall₂ Visit.Truthful calls visits ∧
    rewrites.length = pass.tally.classesChanged ∧
    (rewrites.map Event.members).sum = pass.tally.membersChanged ∧
    (∀ report, pass.finish.result = .ok report → report.tally = pass.tally) ∧
    (policy = .warn → ∃ report, pass.finish.result = .ok report ∧
      pass.finish.events.filter (·.severity = .warn) =
        report.unmatched.unmatched.map .unmatched) := by
  intro visits pass rewrites
  have htally : pass.tally = (start rules policy).observed calls := by
    rw [show pass.tally = _ from tally_after (start rules policy) calls]
    ext <;> exact Nat.zero_add _
  have hcount : pass.tally.classesVisited + pass.pending.classCount = rules.classCount := by
    rw [htally]
    exact length_consumed_add (start rules policy) calls
  have htruthful := truthful_visits (start rules policy) calls
  obtain ⟨hlength, hsum⟩ := rewrites_of_truthful htruthful
  refine ⟨htally, nodup_consumed _ calls, by omega, by omega, htruthful, ?_, ?_, ?_, ?_⟩
  · rw [htally]
    exact hlength
  · rw [htally]
    exact hsum
  · intro report hreport
    rw [eq_report_of_finish hreport]
    rfl
  · intro hwarn
    have hpolicy : pass.policy = .warn := (follows_after rules policy calls).policy_eq.trans hwarn
    exact ⟨pass.report, finish_of_warn hpolicy, warnings_finish hpolicy⟩

end RuleSet

end AccessWidening
