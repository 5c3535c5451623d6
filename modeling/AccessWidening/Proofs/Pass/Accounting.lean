import AccessWidening.Proofs.Pass.Run

/-!
Where the rules of a set end up: every rule is matched by the class that took it, or reported
with that class, or listed as unmatched at the end, and only one of these happens to it.
-/

namespace AccessWidening

open Pass

/-- Whether a call failed over stale rules, with an element among them. -/
def Visit.Reports (visit : Visit) (e : Element) : Prop :=
  ∃ stale, visit.result = .error (.stale stale) ∧ e ∈ stale.unmatched

/-- Whether the end of a pass lists an element as unmatched: in its report if the policy only
warns, in its error otherwise. -/
def Closing.Lists (closing : Closing) (policy : StalePolicy) (e : Element) : Prop :=
  match policy with
  | .warn => ∃ report, closing.result = .ok report ∧ e ∈ report.unmatched.unmatched
  | _ => ∃ stale, closing.result = .error stale ∧ e ∈ stale.unmatched

/-- Whether the class that took the rules for an element declares it. -/
def RuleSet.Matched (rules : RuleSet) (calls : List ClassDecl) (e : Element) : Prop :=
  ∃ i decl, rules.Taker calls e.owner i decl ∧ decl.Declares e

def RuleSet.ReportedAtOnce (rules : RuleSet) (policy : StalePolicy) (calls : List ClassDecl)
    (e : Element) : Prop :=
  policy = .failFast ∧ ∃ i decl visit, rules.Taker calls e.owner i decl ∧
    ((start rules policy).visits calls)[i]? = some visit ∧ visit.Reports e

def ExactlyOne (a b c : Prop) : Prop :=
  (a ∧ ¬ b ∧ ¬ c) ∨ (¬ a ∧ b ∧ ¬ c) ∨ (¬ a ∧ ¬ b ∧ c)

namespace Pass

variable {rules : RuleSet} {policy : StalePolicy} {calls : List ClassDecl} {pass : Pass}

/-- A call reports the rules that it takes and that its class does not declare, if the policy is
to fail fast, and no other rules. -/
theorem Follows.reports_iff (h : Follows rules policy calls pass) (decl : ClassDecl)
    {e : Element} :
    (pass.transform decl).Reports e ↔
      policy = .failFast ∧ e ∈ rules.elements ∧
        (¬ rules.Taken calls e.owner ∧ rules.MayTake e.owner decl) ∧ ¬ decl.Declares e := by
  rcases h.transform_cases decl with ⟨hnone, htransform⟩ |
    ⟨_, _, _, _, _, hambiguous, htransform⟩ | ⟨hfree, bucket, hbucket, hclear, htransform⟩
  · rw [htransform]
    refine iff_of_false ?_ ?_
    · rintro ⟨stale, hresult, _⟩
      cases hresult
    · rintro ⟨_, he, ⟨hfree, hname, _⟩, _⟩
      rw [← hname] at hfree
      exact hfree (hnone e he hname.symm)
  · rw [htransform]
    refine iff_of_false ?_ ?_
    · rintro ⟨stale, hresult, _⟩
      cases hresult
    · rintro ⟨_, _, ⟨_, _, hclear⟩, _⟩
      exact hclear hambiguous
  · rw [htransform]
    have hleftover := mem_leftover_iff (e := e) hbucket hclear hfree
    constructor
    · rintro ⟨stale, hresult, hmem⟩
      obtain ⟨hpolicy, _, hstale⟩ := (result_consume_eq_error_iff pass bucket decl).mp hresult
      obtain rfl := Fault.stale.inj hstale
      exact ⟨h.policy_eq ▸ hpolicy, hleftover.mp (mem_listing.mp hmem)⟩
    · rintro ⟨hpolicy, hrest⟩
      have hmem := hleftover.mpr hrest
      refine ⟨_, (result_consume_eq_error_iff pass bucket decl).mpr
        ⟨h.policy_eq.trans hpolicy, List.ne_nil_of_mem hmem, rfl⟩, ?_⟩
      exact mem_listing.mpr hmem

theorem Follows.policy_of_stale (h : Follows rules policy calls pass) {decl : ClassDecl}
    {stale : StaleRules} (hresult : (pass.transform decl).result = .error (.stale stale)) :
    policy = .failFast := by
  rcases h.transform_cases decl with ⟨_, htransform⟩ | ⟨_, _, _, _, _, _, htransform⟩ |
    ⟨_, bucket, _, _, htransform⟩
  · rw [htransform] at hresult
    cases hresult
  · rw [htransform] at hresult
    cases hresult
  · rw [htransform] at hresult
    have hconsume := (result_consume_eq_error_iff pass bucket decl).mp hresult
    exact h.policy_eq ▸ hconsume.1

/-- The unmatched rules of a report: those that no call took, and those that were taken, not
matched and not reported at once. -/
theorem Follows.mem_unmatched_iff (h : Follows rules policy calls pass) {e : Element} :
    e ∈ pass.report.unmatched.unmatched ↔
      e ∈ rules.elements ∧ (¬ rules.Taken calls e.owner ∨
        (policy ≠ .failFast ∧ ∃ i decl, rules.Taker calls e.owner i decl ∧
          ¬ decl.Declares e)) := by
  have hlisted : e ∈ pass.report.unmatched.unmatched ↔
      e ∈ pass.stale ∨ e ∈ pass.pending.elements := by
    rw [← List.mem_append]
    exact mem_listing
  rw [hlisted, h.stale_iff, h.mem_pending_iff]
  constructor
  · rintro (⟨hpolicy, he, hmissed⟩ | ⟨he, hfree⟩)
    · exact ⟨he, .inr ⟨hpolicy, hmissed⟩⟩
    · exact ⟨he, .inl hfree⟩
  · rintro ⟨he, hfree | ⟨hpolicy, hmissed⟩⟩
    · exact .inr ⟨he, hfree⟩
    · exact .inl ⟨hpolicy, he, hmissed⟩

theorem finish_of_warn {pass : Pass} (hpolicy : pass.policy = .warn) :
    pass.finish.result = .ok pass.report := by
  unfold finish
  rw [if_neg fun h => h.1 hpolicy]

theorem finish_of_ne_warn {pass : Pass} (hpolicy : pass.policy ≠ .warn) :
    pass.finish.result =
      if pass.report.unmatched.unmatched = [] then .ok pass.report
      else .error pass.report.unmatched := by
  unfold finish
  by_cases hclean : pass.report.unmatched.unmatched = []
  · rw [if_neg fun h => h.2 hclean, if_pos hclean]
  · rw [if_pos ⟨hpolicy, hclean⟩, if_neg hclean]

/-- A pass that recorded no stale rule fails at its end unless its pending rules are clear. -/
theorem finish_of_nothing_stale {pass : Pass} (hpolicy : pass.policy ≠ .warn)
    (hstale : pass.stale = []) :
    pass.finish.result = pass.pending.ensureClear.map fun _ => pass.report := by
  have hreport : pass.report.unmatched = .ofList pass.pending.elements := by
    rw [report, hstale, List.nil_append]
  have hlisted : pass.report.unmatched.unmatched = pass.pending.elements := by
    rw [hreport, StaleRules.unmatched_ofList pass.pending.increasing_elements]
  rw [finish_of_ne_warn hpolicy, hlisted]
  by_cases hclear : pass.pending.elements = []
  · rw [if_pos hclear, RuleSet.ensureClear_eq_ok hclear]
    rfl
  · rw [if_neg hclear, RuleSet.ensureClear_eq_error hclear, hreport]
    rfl

/-- Whatever the policy, the end of a pass lists exactly the unmatched rules of its report. -/
theorem lists_finish_iff (pass : Pass) (e : Element) :
    pass.finish.Lists pass.policy e ↔ e ∈ pass.report.unmatched.unmatched := by
  have hfail (hpolicy : pass.policy ≠ .warn) :
      (∃ stale, pass.finish.result = .error stale ∧ e ∈ stale.unmatched) ↔
        e ∈ pass.report.unmatched.unmatched := by
    rw [finish_of_ne_warn hpolicy]
    split
    · next hclean => simp [hclean]
    · simp
  unfold Closing.Lists
  cases hpolicy : pass.policy with
  | warn =>
      rw [finish_of_warn hpolicy]
      simp
  | failAtEnd => exact hfail (by simp [hpolicy])
  | failFast => exact hfail (by simp [hpolicy])

/-- Whatever list the end of a pass gives, in a report or in an error, is that of the report. -/
theorem unmatched_finish (pass : Pass) :
    (∀ report, pass.finish.result = .ok report → report = pass.report) ∧
      ∀ stale, pass.finish.result = .error stale → stale = pass.report.unmatched := by
  by_cases hpolicy : pass.policy = .warn
  · rw [finish_of_warn hpolicy]
    simp [eq_comm]
  · rw [finish_of_ne_warn hpolicy]
    split
    · simp [eq_comm]
    · simp [eq_comm]

end Pass

namespace RuleSet

variable {rules : RuleSet} {policy : StalePolicy} {calls : List ClassDecl} {e : Element}

/-- Only the call that takes the rules for an element can report it. -/
theorem taker_of_reports {i : Nat} {visit : Visit}
    (hvisit : ((start rules policy).visits calls)[i]? = some visit) (hreports : visit.Reports e) :
    e ∈ rules.elements ∧ policy = .failFast ∧
      ∃ decl, rules.Taker calls e.owner i decl ∧ ¬ decl.Declares e := by
  obtain ⟨decl, pass, hdecl, hfollows, rfl⟩ := exists_follows_of_visit hvisit
  obtain ⟨hpolicy, he, ⟨hfree, hmay⟩, hnot⟩ := (hfollows.reports_iff decl).mp hreports
  refine ⟨he, hpolicy, decl, ⟨hdecl, hmay, ?_⟩, hnot⟩
  intro earlier hearlier hmay'
  exact hfree ⟨earlier, hearlier, hmay'⟩

/-- A fail-fast pass reports what the taker of the rules does not declare, in the taker's call. -/
theorem reportedAtOnce_iff (he : e ∈ rules.elements) :
    rules.ReportedAtOnce policy calls e ↔
      policy = .failFast ∧ ∃ i decl, rules.Taker calls e.owner i decl ∧ ¬ decl.Declares e := by
  constructor
  · rintro ⟨hpolicy, i, _, visit, _, hvisit, hreports⟩
    obtain ⟨_, _, decl, htaker, hnot⟩ := taker_of_reports hvisit hreports
    exact ⟨hpolicy, i, decl, htaker, hnot⟩
  · rintro ⟨hpolicy, i, decl, htaker, hnot⟩
    have hfollows := follows_after rules policy (calls.take i)
    have hvisit : ((start rules policy).visits calls)[i]? =
        some (((start rules policy).after (calls.take i)).transform decl) := by
      rw [getElem?_visits, htaker.getElem?_eq]
      rfl
    refine ⟨hpolicy, i, decl, _, htaker, hvisit, (hfollows.reports_iff decl).mpr ?_⟩
    exact ⟨hpolicy, he, ⟨not_taken_take_of_taker htaker, htaker.holds⟩, hnot⟩

/-- A rule has one outcome. Without a taker it is listed at the end; with one, it is matched if
the class declares it, and else the policy decides between the call and the end. -/
theorem exactlyOne_outcome (policy : StalePolicy) (calls : List ClassDecl)
    (he : e ∈ rules.elements) :
    ExactlyOne (rules.Matched calls e) (rules.ReportedAtOnce policy calls e)
      (((start rules policy).after calls).finish.Lists policy e) := by
  have hfollows := follows_after rules policy calls
  have hlists := lists_finish_iff ((start rules policy).after calls) e
  rw [hfollows.policy_eq, hfollows.mem_unmatched_iff, and_iff_right he] at hlists
  unfold ExactlyOne
  rw [hlists, reportedAtOnce_iff he]
  by_cases htaken : rules.Taken calls e.owner
  · obtain ⟨i, decl, htaker⟩ := taken_iff_exists_taker.mp htaken
    have hmatched : rules.Matched calls e ↔ decl.Declares e := htaker.exists_iff (·.Declares e)
    rw [htaker.exists_iff (¬ ·.Declares e), hmatched]
    by_cases hdeclares : decl.Declares e
    · simp [hdeclares, htaken]
    · by_cases hpolicy : policy = .failFast
      · simp [hdeclares, hpolicy, htaken]
      · simp [hdeclares, hpolicy]
  · have hnone (i : Nat) (decl : ClassDecl) : ¬ rules.Taker calls e.owner i decl :=
      fun htaker => htaken (taken_iff_exists_taker.mpr ⟨i, decl, htaker⟩)
    simp [Matched, hnone, htaken]

/-- No rule is lost, invented or reported twice. Every rule of the initial set is matched by the
first class that may take it, or reported by the call for that class, or listed at the end, and
only one of these. Reports at once occur under the fail-fast policy alone, and only in the call
that took the rule. All lists are increasing and hold elements of initial rules only. -/
theorem every_rule_accounted_once (rules : RuleSet) (policy : StalePolicy)
    (calls : List ClassDecl) :
    let visits := (start rules policy).visits calls
    let closing := ((start rules policy).after calls).finish
    (∀ entry ∈ rules.entries, ExactlyOne (rules.Matched calls entry.1)
      (rules.ReportedAtOnce policy calls entry.1) (closing.Lists policy entry.1)) ∧
    (policy ≠ .failFast → ∀ visit ∈ visits, ∀ stale, visit.result ≠ .error (.stale stale)) ∧
    (∀ (i : Nat) (visit : Visit) (e : Element), visits[i]? = some visit → visit.Reports e →
      ∃ decl, rules.Taker calls e.owner i decl) ∧
    (∀ visit ∈ visits, ∀ stale, visit.result = .error (.stale stale) →
      Increasing stale.unmatched ∧ ∀ e ∈ stale.unmatched, ∃ level, (e, level) ∈ rules.entries) ∧
    (∀ stale, closing.result = .error stale →
      Increasing stale.unmatched ∧ ∀ e ∈ stale.unmatched, ∃ level, (e, level) ∈ rules.entries) ∧
    (∀ report, closing.result = .ok report →
      Increasing report.unmatched.unmatched ∧
        ∀ e ∈ report.unmatched.unmatched, ∃ level, (e, level) ∈ rules.entries) := by
  intro visits closing
  have hfollows := follows_after rules policy calls
  have hentry {e : Element} (he : e ∈ rules.elements) : ∃ level, (e, level) ∈ rules.entries := by
    obtain ⟨level, hlevel⟩ := mem_elements_iff.mp he
    exact ⟨level, level?_eq_some_iff.mp hlevel⟩
  have hunmatched : ∀ e ∈ ((start rules policy).after calls).report.unmatched.unmatched,
      ∃ level, (e, level) ∈ rules.entries := by
    intro e he
    exact hentry (hfollows.mem_unmatched_iff.mp he).1
  obtain ⟨hok, herror⟩ := unmatched_finish ((start rules policy).after calls)
  refine ⟨?_, ?_, ?_, ?_, ?_, ?_⟩
  · rintro ⟨e, level⟩ hmem
    exact exactlyOne_outcome policy calls (mem_elements_iff.mpr ⟨level, level?_eq_some_iff.mpr hmem⟩)
  · intro hpolicy visit hvisit stale hresult
    obtain ⟨i, hi⟩ := List.mem_iff_getElem?.mp hvisit
    obtain ⟨decl, pass, _, hpass, rfl⟩ := exists_follows_of_visit hi
    exact hpolicy (hpass.policy_of_stale hresult)
  · intro i visit e hvisit hreports
    obtain ⟨_, _, decl, htaker, _⟩ := taker_of_reports hvisit hreports
    exact ⟨decl, htaker⟩
  · intro visit hvisit stale hresult
    refine ⟨stale.increasing, fun e he => ?_⟩
    obtain ⟨i, hi⟩ := List.mem_iff_getElem?.mp hvisit
    exact hentry (taker_of_reports hi ⟨stale, hresult, he⟩).1
  · intro stale hresult
    refine ⟨stale.increasing, fun e he => ?_⟩
    rw [herror stale hresult] at he
    exact hunmatched e he
  · intro report hresult
    refine ⟨report.unmatched.increasing, fun e he => ?_⟩
    rw [hok report hresult] at he
    exact hunmatched e he

end RuleSet

end AccessWidening
