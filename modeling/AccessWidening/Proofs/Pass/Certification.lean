import AccessWidening.Proofs.Pass.CleanReport
import AccessWidening.Proofs.Pass.Policies

/-!
What the end of a run certifies.

Without an error, the end of a run should mean that every rule was matched and its target rewritten,
and an error should list every rule that was not. A pass that fails at its end keeps that promise in
every run. A pass that fails fast keeps it in the runs where no call failed over stale rules, and in
no other: what a call fails over is not recorded, so a run that goes on after it ends as if these
rules had been matched.
-/

namespace AccessWidening

open Pass

/-- Whether a rule was matched by a class or member that was rewritten under it: the class that took
the rule has a target for it, and the access word there, after the call, is as the rule requests. -/
def RuleSet.RewrittenUnder (rules : RuleSet) (policy : StalePolicy) (calls : List ClassDecl)
    (e : Element) (level : Level) : Prop :=
  ∃ i decl visit place word, rules.Taker calls e.owner i decl ∧
    ((start rules policy).visits calls)[i]? = some visit ∧ decl.Target e place ∧
    visit.decl.access? place = some word ∧ rules.SatisfiedAt decl place word e level

/-- Whether the end of a run answers for all rules: without an error, every rule was matched and
rewritten under, and an error lists every rule that was not. -/
def RuleSet.Certifies (rules : RuleSet) (policy : StalePolicy) (calls : List ClassDecl) : Prop :=
  let closing := ((start rules policy).after calls).finish
  (∀ report, closing.result = .ok report → ∀ entry ∈ rules.entries,
    rules.RewrittenUnder policy calls entry.1 entry.2) ∧
  (∀ stale, closing.result = .error stale → ∀ entry ∈ rules.entries,
    ¬ rules.RewrittenUnder policy calls entry.1 entry.2 → entry.1 ∈ stale.unmatched)

theorem Visit.mem_failedOver_iff {visit : Visit} {e : Element} :
    e ∈ visit.failedOver ↔ visit.Reports e := by
  unfold Visit.failedOver Visit.Reports
  split
  · next stale hresult => simp [hresult]
  · next hother =>
    refine iff_of_false List.not_mem_nil ?_
    rintro ⟨stale, hresult, _⟩
    exact hother stale hresult

theorem Closing.mem_failedOver_iff {closing : Closing} {e : Element} :
    e ∈ closing.failedOver ↔ ∃ stale, closing.result = .error stale ∧ e ∈ stale.unmatched := by
  unfold Closing.failedOver
  cases closing.result with
  | error stale => simp
  | ok report => simp

theorem Closing.lists_iff_mem_failedOver {closing : Closing} {policy : StalePolicy} {e : Element}
    (hpolicy : policy ≠ .warn) : closing.Lists policy e ↔ e ∈ closing.failedOver := by
  rw [Closing.mem_failedOver_iff]
  cases policy with
  | warn => exact absurd rfl hpolicy
  | failAtEnd => exact Iff.rfl
  | failFast => exact Iff.rfl

namespace RuleSet

variable {rules : RuleSet} {policy : StalePolicy} {calls : List ClassDecl} {e : Element}
  {level : Level}

/-- What takes a rule and declares its element is rewritten under it, and nothing else is. -/
theorem rewrittenUnder_iff_matched (hlevel : rules.level? e = some level) :
    rules.RewrittenUnder policy calls e level ↔ rules.Matched calls e := by
  constructor
  · rintro ⟨i, decl, _, _, _, htaker, _, htarget, _⟩
    exact ⟨i, decl, htaker, htarget.declares⟩
  · rintro ⟨i, decl, htaker, hdeclares⟩
    have hrule : e ∈ rules.elements := mem_elements_iff.mpr ⟨level, hlevel⟩
    obtain ⟨place, htarget⟩ :=
      ClassDecl.exists_target_of_declares hrule htaker.holds.2 hdeclares
    obtain ⟨visit, word, hvisit, hword, hsatisfied⟩ :=
      satisfiedAt_of_taker policy hlevel htaker htarget
    exact ⟨i, decl, visit, place, word, htaker, hvisit, htarget, hword, hsatisfied⟩

/-- The end of a run answers for all rules exactly if it fails over those that were not rewritten
under. -/
theorem certifies_iff_failedOver :
    rules.Certifies policy calls ↔ ∀ entry ∈ rules.entries,
      ¬ rules.RewrittenUnder policy calls entry.1 entry.2 →
        entry.1 ∈ ((start rules policy).after calls).finish.failedOver := by
  constructor
  · rintro ⟨hok, herror⟩ entry hentry hnot
    cases hresult : ((start rules policy).after calls).finish.result with
    | ok report => exact absurd (hok report hresult entry hentry) hnot
    | error stale =>
        have hlisted := herror stale hresult entry hentry hnot
        exact Closing.mem_failedOver_iff.mpr ⟨stale, hresult, hlisted⟩
  · intro h
    constructor
    · intro report hresult entry hentry
      apply Classical.byContradiction
      intro hnot
      obtain ⟨stale, herror, _⟩ := Closing.mem_failedOver_iff.mp (h entry hentry hnot)
      cases hresult.symm.trans herror
    · intro stale hresult entry hentry hnot
      obtain ⟨_, herror, hlisted⟩ := Closing.mem_failedOver_iff.mp (h entry hentry hnot)
      obtain rfl := Except.error.inj (herror.symm.trans hresult)
      exact hlisted

/-- Where stale rules are an error, the end of a run answers for all rules unless a call reported
one of them at once. -/
theorem certifies_iff_not_reportedAtOnce (hpolicy : policy ≠ .warn) :
    rules.Certifies policy calls ↔
      ∀ entry ∈ rules.entries, ¬ rules.ReportedAtOnce policy calls entry.1 := by
  rw [certifies_iff_failedOver]
  apply forall₂_congr
  rintro ⟨e, level⟩ hentry
  have hlevel := level?_eq_some_iff.mpr hentry
  rw [rewrittenUnder_iff_matched hlevel, ← Closing.lists_iff_mem_failedOver hpolicy]
  -- A rule that is neither matched nor reported at once is listed, and it has one outcome only.
  rcases exactlyOne_outcome policy calls (mem_elements_iff.mpr ⟨level, hlevel⟩) with
    ⟨hmatched, hreported, _⟩ | ⟨hmatched, hreported, hlisted⟩ | ⟨_, hreported, hlisted⟩
  · simp [hmatched, hreported]
  · simp [hmatched, hreported, hlisted]
  · simp [hreported, hlisted]

/-- No rule is reported at once exactly if no call fails over stale rules. -/
theorem forall_not_reportedAtOnce_iff :
    (∀ entry ∈ rules.entries, ¬ rules.ReportedAtOnce .failFast calls entry.1) ↔
      ∀ visit ∈ (start rules .failFast).visits calls, visit.failedOver = [] := by
  constructor
  · intro hnone visit hvisit
    apply List.eq_nil_iff_forall_not_mem.mpr
    intro e he
    obtain ⟨i, hi⟩ := List.mem_iff_getElem?.mp hvisit
    have hreports := Visit.mem_failedOver_iff.mp he
    obtain ⟨hrule, hpolicy, decl, htaker, _⟩ := taker_of_reports hi hreports
    obtain ⟨level, hlevel⟩ := mem_elements_iff.mp hrule
    exact hnone (e, level) (level?_eq_some_iff.mp hlevel)
      ⟨hpolicy, i, decl, visit, htaker, hi, hreports⟩
  · rintro hnone ⟨e, level⟩ _ ⟨_, _, _, visit, _, hvisit, hreports⟩
    have he := Visit.mem_failedOver_iff.mpr hreports
    rw [hnone visit (List.mem_of_getElem? hvisit)] at he
    cases he

/-- The end of a run answers for all rules if the policy is to fail at the end, whatever the calls.
If the policy is to fail fast, it does exactly in the runs in which no call fails over stale
rules. -/
theorem end_certifies_unless_call_failed (rules : RuleSet) (calls : List ClassDecl) :
    rules.Certifies .failAtEnd calls ∧
      (rules.Certifies .failFast calls ↔
        ∀ visit ∈ (start rules .failFast).visits calls, visit.failedOver = []) := by
  constructor
  · rw [certifies_iff_not_reportedAtOnce (by decide)]
    rintro e _ ⟨hpolicy, _⟩
    cases hpolicy
  · rw [certifies_iff_not_reportedAtOnce (by decide)]
    exact forall_not_reportedAtOnce_iff

/-- A rule for a method that its class does not declare. The call for the class fails, and the end
of the run after it reports that all is well. -/
theorem clean_end_after_failed_call :
    let rules := empty.request (.method "a/A" "missing" "()V") ⟨.pub, .unstated⟩
    let calls : List ClassDecl := [⟨"a/A", ⟨0⟩, [], []⟩]
    (∃ report, ((start rules .failFast).after calls).finish.result = .ok report ∧
      report.isClean = true) ∧ ¬ rules.Certifies .failFast calls := by
  intro rules calls
  have hclean : ((start rules .failFast).after calls).finish.result =
      .ok ⟨⟨1, 0, 0⟩, .ofList []⟩ := by decide
  refine ⟨⟨_, hclean, rfl⟩, ?_⟩
  rintro ⟨hok, _⟩
  obtain ⟨_, decl, _, _, _, htaker, _, htarget, _⟩ :=
    hok _ hclean (.method "a/A" "missing" "()V", ⟨.pub, .unstated⟩) (by decide)
  obtain rfl := List.mem_singleton.mp htaker.mem
  obtain ⟨_, m, hm, _⟩ := htarget.declares
  cases hm

end RuleSet

end AccessWidening
