import AccessWidening.Proofs.Pass.Accounting
import AccessWidening.Proofs.Pass.Visit
import AccessWidening.Proofs.RuleSet.Owners

/-!
The stale policy decides how stale rules are reported, and nothing else.

Passes that start with the same rules go abreast, whatever their policies: a call looks at the
policy only after its class was widened and counted. What a pass records that does not fail fast is,
call by call, what a pass that does fails over. So all policies come to report the same rules.
-/

namespace AccessWidening

/-- What a visit does, apart from how it reports stale rules: the class afterwards, the rules that
are still pending, the numbers and the events. -/
def Visit.effects (visit : Visit) : ClassDecl × RuleSet × Tally × List Event :=
  (visit.decl, visit.pass.pending, visit.pass.tally, visit.events)

def Visit.failedOver (visit : Visit) : List Element :=
  match visit.result with
  | .error (.stale stale) => stale.unmatched
  | _ => []

def Closing.failedOver (closing : Closing) : List Element :=
  match closing.result with
  | .error stale => stale.unmatched
  | .ok _ => []

namespace Pass

/-- Whether two passes hold the same rules and have counted the same. -/
structure Abreast (pass other : Pass) : Prop where
  pending_eq : pass.pending = other.pending
  tally_eq : pass.tally = other.tally

variable {rules : RuleSet} {policy : StalePolicy} {calls : List ClassDecl} {pass other : Pass}
  {decl : ClassDecl} {bucket : Bucket}

/-! ## Passes abreast -/

theorem result_consume_ne_ambiguous {field : AmbiguousField} :
    (pass.consume bucket decl).result ≠ .error (.ambiguous field) := by
  rw [ne_eq, result_consume_eq_error_iff]
  rintro ⟨_, _, hfault⟩
  cases hfault

namespace Abreast

/-- A call finds the same rules in passes abreast: it takes the same bucket from both, or comes to
the same result without one. -/
theorem transform_cases (h : pass.Abreast other) (decl : ClassDecl) :
    (∃ bucket, pass.Takes decl bucket ∧ pass.transform decl = pass.consume bucket decl ∧
      other.transform decl = other.consume bucket decl) ∨
    ∃ result, pass.transform decl = ⟨pass, decl, result, []⟩ ∧
      other.transform decl = ⟨other, decl, result, []⟩ ∧
      (result = .ok false ∨ ∃ field, result = .error (.ambiguous field)) := by
  have hpending : other.pending.bucket? decl.name = pass.pending.bucket? decl.name := by
    rw [h.pending_eq]
  cases hbucket : pass.pending.bucket? decl.name with
  | none =>
      exact .inr ⟨_, transform_of_bucket?_eq_none hbucket,
        transform_of_bucket?_eq_none (hpending.trans hbucket), .inl rfl⟩
  | some bucket =>
      have hother := hpending.trans hbucket
      cases hfound : bucket.ambiguity? decl with
      | some field =>
          exact .inr ⟨_, transform_of_ambiguity?_eq_some hbucket hfound,
            transform_of_ambiguity?_eq_some hother hfound, .inr ⟨field, rfl⟩⟩
      | none =>
          exact .inl ⟨bucket, ⟨hbucket, hfound⟩, transform_of_ambiguity?_eq_none hbucket hfound,
            transform_of_ambiguity?_eq_none hother hfound⟩

theorem effects_transform (h : pass.Abreast other) (decl : ClassDecl) :
    (pass.transform decl).effects = (other.transform decl).effects := by
  rcases h.transform_cases decl with ⟨bucket, _, hpass, hother⟩ | ⟨result, hpass, hother, _⟩
  · rw [hpass, hother]
    simp only [Visit.effects, decl_consume, pending_consume, tally_consume, events_consume,
      h.pending_eq, h.tally_eq]
  · rw [hpass, hother]
    simp only [Visit.effects, h.pending_eq, h.tally_eq]

/-- The same call keeps passes abreast. -/
theorem transform (h : pass.Abreast other) (decl : ClassDecl) :
    (pass.transform decl).pass.Abreast (other.transform decl).pass := by
  have heffects := h.effects_transform decl
  simp only [Visit.effects, Prod.mk.injEq] at heffects
  exact ⟨heffects.2.1, heffects.2.2.1⟩

theorem after (h : pass.Abreast other) (calls : List ClassDecl) :
    (pass.after calls).Abreast (other.after calls) := by
  induction calls generalizing pass other with
  | nil => exact h
  | cons decl rest ih => exact ih (h.transform decl)

theorem effects_visits (h : pass.Abreast other) (calls : List ClassDecl) :
    (pass.visits calls).map Visit.effects = (other.visits calls).map Visit.effects := by
  induction calls generalizing pass other with
  | nil => rfl
  | cons decl rest ih =>
      simp only [visits, List.map_cons, h.effects_transform decl, ih (h.transform decl)]

theorem ambiguous_iff (h : pass.Abreast other) {field : AmbiguousField} :
    (pass.transform decl).result = .error (.ambiguous field) ↔
      (other.transform decl).result = .error (.ambiguous field) := by
  rcases h.transform_cases decl with ⟨bucket, _, hpass, hother⟩ | ⟨result, hpass, hother, _⟩
  · rw [hpass, hother]
    exact iff_of_false result_consume_ne_ambiguous result_consume_ne_ambiguous
  · rw [hpass, hother]

/-- Where neither pass fails fast, a call has one result. -/
theorem result_transform (h : pass.Abreast other) (hpass : pass.policy ≠ .failFast)
    (hother : other.policy ≠ .failFast) (decl : ClassDecl) :
    (pass.transform decl).result = (other.transform decl).result := by
  rcases h.transform_cases decl with ⟨bucket, _, htakes, htakes'⟩ | ⟨result, hkeeps, hkeeps', _⟩
  · rw [htakes, htakes', result_consume, result_consume, if_neg fun hfails => hpass hfails.1,
      if_neg fun hfails => hother hfails.1]
  · rw [hkeeps, hkeeps']

theorem results_visits (h : pass.Abreast other) (hpass : pass.policy ≠ .failFast)
    (hother : other.policy ≠ .failFast) (calls : List ClassDecl) :
    (pass.visits calls).map Visit.result = (other.visits calls).map Visit.result := by
  induction calls generalizing pass other with
  | nil => rfl
  | cons decl rest ih =>
      have hrest := ih (h.transform decl) (by rwa [policy_transform]) (by rwa [policy_transform])
      simp only [visits, List.map_cons, h.result_transform hpass hother decl, hrest]

end Abreast

theorem abreast_start (rules : RuleSet) (policy other : StalePolicy) :
    (start rules policy).Abreast (start rules other) := ⟨rfl, rfl⟩

theorem abreast_after (rules : RuleSet) (policy other : StalePolicy) (calls : List ClassDecl) :
    ((start rules policy).after calls).Abreast ((start rules other).after calls) :=
  (abreast_start rules policy other).after calls

/-! ## What is recorded, and what is failed over -/

theorem failedOver_consume (hpolicy : pass.policy = .failFast) :
    (pass.consume bucket decl).failedOver = (bucket.apply decl).leftover.members := by
  have hlisting : listing (bucket.apply decl).leftover.members =
      (bucket.apply decl).leftover.members :=
    (Bucket.increasing_members _).listing_eq
  unfold Visit.failedOver
  rw [result_consume]
  by_cases hleft : (bucket.apply decl).leftover.members = []
  · rw [if_neg fun hfails => hfails.2 hleft, hleft]
  · rw [if_pos ⟨hpolicy, hleft⟩]
    exact hlisting

/-- What a call records in one pass is what it fails over in another one that fails fast. -/
theorem stale_transform (h : pass.Abreast other) (hpass : pass.policy ≠ .failFast)
    (hother : other.policy = .failFast) (decl : ClassDecl) :
    (pass.transform decl).pass.stale = pass.stale ++ (other.transform decl).failedOver := by
  rcases h.transform_cases decl with ⟨bucket, _, htakes, htakes'⟩ |
    ⟨_, hkeeps, hkeeps', rfl | ⟨field, rfl⟩⟩
  · rw [htakes, htakes', stale_consume, if_neg hpass, failedOver_consume hother]
  · rw [hkeeps, hkeeps']
    exact (List.append_nil _).symm
  · rw [hkeeps, hkeeps']
    exact (List.append_nil _).symm

/-- A pass records, in their order, the rules that the calls of a pass fail over that fails fast. -/
theorem stale_after (hpolicy : policy ≠ .failFast) :
    ((start rules policy).after calls).stale =
      ((start rules .failFast).visits calls).flatMap Visit.failedOver := by
  induction calls using List.reverseRecOn with
  | nil => rfl
  | append_singleton calls decl ih =>
      have hrecords : ((start rules policy).after calls).policy ≠ .failFast := by
        rw [(follows_after rules policy calls).policy_eq]
        exact hpolicy
      have hfails := (follows_after rules .failFast calls).policy_eq
      rw [after_snoc, visits_snoc, List.flatMap_append, List.flatMap_singleton,
        stale_transform (abreast_after rules policy .failFast calls) hrecords hfails, ih]

theorem stale_after_failFast : ((start rules .failFast).after calls).stale = [] := by
  apply List.eq_nil_iff_forall_not_mem.mpr
  intro e he
  exact ((follows_after rules .failFast calls).stale_iff e |>.mp he).1 rfl

/-- The end of a pass that fails fast is whether its pending rules are clear. -/
theorem finish_after_failFast :
    ((start rules .failFast).after calls).finish.result =
      ((start rules .failFast).after calls).pending.ensureClear.map fun _ =>
        ((start rules .failFast).after calls).report := by
  refine finish_of_nothing_stale ?_ stale_after_failFast
  rw [(follows_after rules .failFast calls).policy_eq]
  decide

theorem failedOver_finish_failFast :
    ((start rules .failFast).after calls).finish.failedOver =
      ((start rules .failFast).after calls).pending.elements := by
  unfold Closing.failedOver
  rw [finish_after_failFast]
  by_cases hclear : ((start rules .failFast).after calls).pending.elements = []
  · rw [RuleSet.ensureClear_eq_ok hclear, hclear]
    rfl
  · rw [RuleSet.ensureClear_eq_error hclear]
    exact StaleRules.unmatched_ofList (RuleSet.increasing_elements _)

/-- Policies that do not fail fast come to the same report. -/
theorem report_after_eq {other : StalePolicy} (hpolicy : policy ≠ .failFast)
    (hother : other ≠ .failFast) :
    ((start rules policy).after calls).report = ((start rules other).after calls).report := by
  have habreast := abreast_after rules policy other calls
  unfold report
  rw [stale_after hpolicy, stale_after hother, habreast.pending_eq, habreast.tally_eq]

/-- What a pass that fails fast fails over, in its calls and at its end, is what another pass has
recorded or finds pending at its end. -/
theorem failedOver_run (hpolicy : policy ≠ .failFast) :
    ((start rules .failFast).visits calls).flatMap Visit.failedOver ++
        ((start rules .failFast).after calls).finish.failedOver =
      ((start rules policy).after calls).stale ++
        ((start rules policy).after calls).pending.elements := by
  rw [failedOver_finish_failFast, stale_after hpolicy,
    (abreast_after rules .failFast policy calls).pending_eq]

/-- A call does not record a rule that is recorded already or stays pending. -/
theorem nodup_transform (h : (pass.stale ++ pass.pending.elements).Nodup) (decl : ClassDecl) :
    ((pass.transform decl).pass.stale ++ (pass.transform decl).pass.pending.elements).Nodup := by
  rcases pass.transform_cases decl with ⟨bucket, htakes, htransform⟩ | ⟨_, _, htransform, _⟩
  · obtain ⟨hstale, hpending, hapart⟩ := List.nodup_append.mp h
    rw [htransform, stale_consume, pending_consume]
    have hleft {e : Element} (he : e ∈ (bucket.apply decl).leftover.members) :
        e ∈ pass.pending.elements ∧ e.owner = decl.name :=
      ⟨((mem_leftover_apply htakes.1).mp he).1, ((mem_leftover_apply htakes.1).mp he).2.1⟩
    have hkeptNodup : (pass.pending.withoutOwner decl.name).elements.Nodup :=
      (RuleSet.increasing_elements _).nodup
    split
    · refine List.nodup_append.mpr ⟨hstale, hkeptNodup, ?_⟩
      intro e he other hother
      exact hapart e he other (RuleSet.mem_elements_withoutOwner.mp hother).1
    · refine List.nodup_append.mpr ⟨?_, hkeptNodup, ?_⟩
      · refine List.nodup_append.mpr ⟨hstale, (Bucket.increasing_members _).nodup, ?_⟩
        intro e he other hother
        exact hapart e he other (hleft hother).1
      · rintro e he other hother rfl
        rcases List.mem_append.mp he with hold | hnew
        · exact hapart e hold e (RuleSet.mem_elements_withoutOwner.mp hother).1 rfl
        · exact (RuleSet.mem_elements_withoutOwner.mp hother).2 (hleft hnew).2
  · rw [htransform]
    exact h

theorem nodup_after (rules : RuleSet) (policy : StalePolicy) (calls : List ClassDecl) :
    (((start rules policy).after calls).stale ++
      ((start rules policy).after calls).pending.elements).Nodup := by
  induction calls using List.reverseRecOn with
  | nil => exact rules.increasing_elements.nodup
  | append_singleton calls decl ih =>
      rw [after_snoc]
      exact nodup_transform ih decl

end Pass

namespace RuleSet

open Pass

/-- The policy decides how stale rules are reported, and nothing else. In runs of the same calls
under any policies, each call leaves the same class, the same pending rules, the same numbers and
the same events, and it fails over the same ambiguity or over none. Without failing fast its result
is the same altogether. At the end a pass that warns reports some unmatched rules: a pass that fails
at the end fails over exactly these, or gives the same report if there are none, and a pass that
fails fast has failed over each of them once, in a call or at the end. -/
theorem policy_decides_reports_only (rules : RuleSet) (calls : List ClassDecl) :
    let visits (policy : StalePolicy) := (start rules policy).visits calls
    let closing (policy : StalePolicy) := ((start rules policy).after calls).finish
    let reported := (visits .failFast).map Visit.failedOver ++ [(closing .failFast).failedOver]
    (∀ policy other, (visits policy).map Visit.effects = (visits other).map Visit.effects) ∧
    (∀ policy other (i : Nat) (field : AmbiguousField),
      (visits policy)[i]?.map Visit.result = some (.error (.ambiguous field)) ↔
        (visits other)[i]?.map Visit.result = some (.error (.ambiguous field))) ∧
    (visits .failAtEnd).map Visit.result = (visits .warn).map Visit.result ∧
    ∃ report, (closing .warn).result = .ok report ∧
      (closing .failAtEnd).result =
        (if report.unmatched.unmatched = [] then .ok report else .error report.unmatched) ∧
      report.unmatched.unmatched.Perm reported.flatten ∧ reported.Pairwise List.Disjoint := by
  intro visits closing reported
  have hpolicy (policy : StalePolicy) : ((start rules policy).after calls).policy = policy :=
    (follows_after rules policy calls).policy_eq
  refine ⟨?_, ?_, ?_, ((start rules .warn).after calls).report, ?_, ?_, ?_⟩
  · intro policy other
    exact (abreast_start rules policy other).effects_visits calls
  · intro policy other i field
    have habreast := abreast_after rules policy other (calls.take i)
    simp only [visits, getElem?_visits, Option.map_map]
    cases hdecl : calls[i]? with
    | none => simp
    | some decl => simpa using habreast.ambiguous_iff
  · apply (abreast_start rules .failAtEnd .warn).results_visits
    · simp [start]
    · simp [start]
  · exact finish_of_warn (hpolicy .warn)
  · have hreport : ((start rules .failAtEnd).after calls).report =
        ((start rules .warn).after calls).report := report_after_eq (by decide) (by decide)
    rw [← hreport]
    exact finish_of_ne_warn (by simp [hpolicy])
  · -- What a pass that fails fast fails over in all is what the report is the listing of.
    have hreported : reported.flatten = ((start rules .warn).after calls).stale ++
        ((start rules .warn).after calls).pending.elements := by
      rw [← failedOver_run (by decide), List.flatten_append, List.flatten_singleton]
      rfl
    have hnodup := nodup_after rules .warn calls
    rw [← hreported] at hnodup
    refine ⟨?_, (List.nodup_flatten.mp hnodup).2⟩
    show (listing _).Perm _
    rw [← hreported]
    exact listing_perm hnodup

end RuleSet

end AccessWidening
