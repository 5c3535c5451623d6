import Mathlib.Data.List.Induction
import AccessWidening.Proofs.First
import AccessWidening.Proofs.Pass.Step

/-!
Runs of a pass: any number of calls, one after another, where a fault does not end the run.

The rules of a class are taken by the first call for its name that finds them unambiguous. This is
said of the initial rules and the list of calls alone; `Pass.Follows` relates it to the state that
a pass has after the calls, and `Pass.Follows.transform_cases` reads off what the next call does.
-/

namespace AccessWidening

namespace Pass

def visits (pass : Pass) : List ClassDecl → List Visit
  | [] => []
  | decl :: rest => pass.transform decl :: (pass.transform decl).pass.visits rest

def after (pass : Pass) (calls : List ClassDecl) : Pass :=
  calls.foldl (fun pass decl => (pass.transform decl).pass) pass

theorem after_cons (pass : Pass) (decl : ClassDecl) (rest : List ClassDecl) :
    pass.after (decl :: rest) = (pass.transform decl).pass.after rest := rfl

theorem after_snoc (pass : Pass) (calls : List ClassDecl) (decl : ClassDecl) :
    pass.after (calls ++ [decl]) = ((pass.after calls).transform decl).pass := by
  unfold after
  rw [List.foldl_append]
  rfl

theorem visits_snoc (pass : Pass) (calls : List ClassDecl) (decl : ClassDecl) :
    pass.visits (calls ++ [decl]) = pass.visits calls ++ [(pass.after calls).transform decl] := by
  induction calls generalizing pass with
  | nil => rfl
  | cons first rest ih =>
      simp only [List.cons_append, visits, ih]
      rfl

/-- The visit of a call is what it makes of the pass after the calls before it. -/
theorem getElem?_visits (pass : Pass) (calls : List ClassDecl) (i : Nat) :
    (pass.visits calls)[i]? = calls[i]?.map (pass.after (calls.take i)).transform := by
  induction calls generalizing pass i with
  | nil => rfl
  | cons decl rest ih =>
      cases i with
      | zero => rfl
      | succ i =>
          simp only [visits, List.getElem?_cons_succ, List.take_succ_cons]
          exact ih (pass.transform decl).pass i

theorem visits_eq_some {pass : Pass} {calls : List ClassDecl} {i : Nat} {decl : ClassDecl}
    (hdecl : calls[i]? = some decl) :
    (pass.visits calls)[i]? = some ((pass.after (calls.take i)).transform decl) := by
  rw [getElem?_visits, hdecl]
  rfl

end Pass

namespace RuleSet

variable {rules : RuleSet} {calls : List ClassDecl} {owner : String} {i : Nat}
  {decl last : ClassDecl}

/-- Whether a class is the one that `owner` names, and the rules are not ambiguous for it. -/
def MayTake (rules : RuleSet) (owner : String) (decl : ClassDecl) : Prop :=
  decl.name = owner ∧ ¬ rules.AmbiguousOn decl

/-- The call that takes the rules of `owner`: the first one that may. -/
abbrev Taker (rules : RuleSet) (calls : List ClassDecl) (owner : String) (i : Nat)
    (decl : ClassDecl) : Prop := FirstAt (rules.MayTake owner) calls i decl

def Taken (rules : RuleSet) (calls : List ClassDecl) (owner : String) : Prop :=
  ∃ decl ∈ calls, rules.MayTake owner decl

theorem taken_iff_exists_taker :
    rules.Taken calls owner ↔ ∃ i decl, rules.Taker calls owner i decl :=
  ⟨exists_firstAt, fun ⟨_, decl, htaker⟩ => ⟨decl, htaker.mem, htaker.holds⟩⟩

theorem not_taken_nil : ¬ rules.Taken [] owner := by
  rintro ⟨decl, hdecl, _⟩
  cases hdecl

theorem taken_snoc_iff :
    rules.Taken (calls ++ [last]) owner ↔ rules.Taken calls owner ∨ rules.MayTake owner last := by
  unfold Taken
  constructor
  · rintro ⟨decl, hdecl, hmay⟩
    rcases List.mem_append.mp hdecl with hold | hlast
    · exact .inl ⟨decl, hold, hmay⟩
    · obtain rfl := List.mem_singleton.mp hlast
      exact .inr hmay
  · rintro (⟨decl, hdecl, hmay⟩ | hmay)
    · exact ⟨decl, List.mem_append_left _ hdecl, hmay⟩
    · exact ⟨last, by simp, hmay⟩

theorem taker_snoc_iff :
    rules.Taker (calls ++ [last]) owner i decl ↔
      rules.Taker calls owner i decl ∨
        (¬ rules.Taken calls owner ∧ i = calls.length ∧ decl = last ∧
          rules.MayTake owner last) := by
  have hnone : (∀ earlier ∈ calls, ¬ rules.MayTake owner earlier) ↔
      ¬ rules.Taken calls owner := by
    unfold Taken
    simp only [not_exists, not_and]
  rw [← hnone]
  exact FirstAt.snoc_iff

/-- Before the taker's call the rules are not taken. -/
theorem not_taken_take_of_taker (htaker : rules.Taker calls owner i decl) :
    ¬ rules.Taken (calls.take i) owner := by
  rintro ⟨earlier, hearlier, hmay⟩
  exact htaker.not_before earlier hearlier hmay

theorem bucket?_congr {a b : RuleSet} (h : ∀ e, e.owner = owner → a.level? e = b.level? e) :
    a.bucket? owner = b.bucket? owner := by
  have hsame : a.ofOwner owner = b.ofOwner owner := by
    apply ext_level?
    intro e
    rw [level?_ofOwner, level?_ofOwner]
    split
    · next howner => exact h e howner
    · rfl
  unfold bucket?
  simp only [hsame]

end RuleSet

namespace Pass

variable {rules : RuleSet} {policy : StalePolicy} {calls : List ClassDecl} {pass : Pass}

/-- What a pass that started with `rules` has become after `calls`: the rules that no call took
are pending, and those that a call took and that named nothing in its class are recorded, unless
the policy reported them at once. -/
structure Follows (rules : RuleSet) (policy : StalePolicy) (calls : List ClassDecl)
    (pass : Pass) : Prop where
  policy_eq : pass.policy = policy
  pending_iff : ∀ e level, pass.pending.level? e = some level ↔
    rules.level? e = some level ∧ ¬ rules.Taken calls e.owner
  stale_iff : ∀ e, e ∈ pass.stale ↔ policy ≠ .failFast ∧ e ∈ rules.elements ∧
    ∃ i decl, rules.Taker calls e.owner i decl ∧ ¬ decl.Declares e

theorem follows_start (rules : RuleSet) (policy : StalePolicy) :
    Follows rules policy [] (start rules policy) where
  policy_eq := rfl
  pending_iff e level := by
    simp only [start, RuleSet.not_taken_nil, not_false_eq_true, and_true]
  stale_iff e := by
    refine iff_of_false List.not_mem_nil ?_
    rintro ⟨_, _, i, decl, htaker, _⟩
    exact RuleSet.not_taken_nil (RuleSet.taken_iff_exists_taker.mpr ⟨i, decl, htaker⟩)

theorem Follows.mem_pending_iff (h : Follows rules policy calls pass) {e : Element} :
    e ∈ pass.pending.elements ↔ e ∈ rules.elements ∧ ¬ rules.Taken calls e.owner := by
  simp only [RuleSet.mem_elements_iff, h.pending_iff, exists_and_right]

/-- As long as the rules of a class are not taken, all of them are pending. -/
theorem Follows.level?_pending_eq (h : Follows rules policy calls pass) {owner : String}
    (hfree : ¬ rules.Taken calls owner) :
    ∀ e, e.owner = owner → pass.pending.level? e = rules.level? e := by
  rintro e rfl
  apply Option.ext
  intro level
  rw [h.pending_iff, and_iff_left hfree]

/-- As long as the rules of a class are not taken, they are as ambiguous as the initial ones. -/
theorem Follows.ambiguousOn_iff (h : Follows rules policy calls pass) {decl : ClassDecl}
    (hfree : ¬ rules.Taken calls decl.name) :
    pass.pending.AmbiguousOn decl ↔ rules.AmbiguousOn decl :=
  RuleSet.ambiguousOn_congr (h.level?_pending_eq hfree)

/-- What the next call does, said of the initial rules and the calls before it. -/
theorem Follows.transform_cases (h : Follows rules policy calls pass) (decl : ClassDecl) :
    ((∀ e ∈ rules.elements, e.owner = decl.name → rules.Taken calls decl.name) ∧
      pass.transform decl = ⟨pass, decl, .ok false, []⟩) ∨
    (¬ rules.Taken calls decl.name ∧ ∃ bucket found,
      rules.bucket? decl.name = some bucket ∧ bucket.ambiguity? decl = some found ∧
      rules.AmbiguousOn decl ∧
      pass.transform decl = ⟨pass, decl, .error (.ambiguous found), []⟩) ∨
    (¬ rules.Taken calls decl.name ∧ ∃ bucket,
      rules.bucket? decl.name = some bucket ∧ ¬ rules.AmbiguousOn decl ∧
      pass.transform decl = pass.consume bucket decl) := by
  cases hpending : pass.pending.bucket? decl.name with
  | none =>
      left
      refine ⟨?_, transform_of_bucket?_eq_none hpending⟩
      intro e he howner
      apply Classical.byContradiction
      intro hfree
      have hmem : e ∈ pass.pending.elements := h.mem_pending_iff.mpr ⟨he, howner ▸ hfree⟩
      exact RuleSet.bucket?_eq_none_iff.mp hpending e hmem howner
  | some bucket =>
      right
      -- Some rule of the class is pending, so none of them is taken.
      have hfree : ¬ rules.Taken calls decl.name := by
        have hsome : ¬ ∀ e ∈ pass.pending.elements, e.owner ≠ decl.name := by
          intro hall
          rw [RuleSet.bucket?_eq_none_iff.mpr hall] at hpending
          cases hpending
        intro htaken
        apply hsome
        intro e he howner
        exact (h.mem_pending_iff.mp he).2 (howner ▸ htaken)
      have hagree := h.level?_pending_eq hfree
      have hbucket : rules.bucket? decl.name = some bucket :=
        (RuleSet.bucket?_congr hagree).symm.trans hpending
      have hambiguity := RuleSet.ambiguousOn_congr hagree
      by_cases hambiguous : pass.pending.AmbiguousOn decl
      · left
        obtain ⟨found, bucket', hbucket', hfound, htransform⟩ := transform_of_ambiguous hambiguous
        obtain rfl := Option.some.inj (hbucket'.symm.trans hpending)
        exact ⟨hfree, bucket', found, hbucket, hfound, hambiguity.mp hambiguous, htransform⟩
      · right
        refine ⟨hfree, bucket, hbucket, fun hno => hambiguous (hambiguity.mpr hno), ?_⟩
        exact transform_of_bucket?_eq_some hpending hambiguous

/-- The rules that a taken bucket leaves over, said of the initial rules. -/
theorem mem_leftover_iff {bucket : Bucket} {decl : ClassDecl}
    (hbucket : rules.bucket? decl.name = some bucket) (hclear : ¬ rules.AmbiguousOn decl)
    (hfree : ¬ rules.Taken calls decl.name) {e : Element} :
    e ∈ (bucket.apply decl).leftover.members ↔
      e ∈ rules.elements ∧ (¬ rules.Taken calls e.owner ∧ rules.MayTake e.owner decl) ∧
        ¬ decl.Declares e := by
  rw [mem_leftover_apply hbucket]
  constructor
  · rintro ⟨he, howner, hnot⟩
    exact ⟨he, ⟨howner ▸ hfree, howner.symm, hclear⟩, hnot⟩
  · rintro ⟨he, ⟨_, hmay⟩, hnot⟩
    exact ⟨he, hmay.1.symm, hnot⟩

/-- A call that keeps the pass keeps what is said of it, if it adds no taker for an owner that has
rules. -/
theorem Follows.idle (h : Follows rules policy calls pass) {decl : ClassDecl}
    (hnot : ∀ e ∈ rules.elements, rules.MayTake e.owner decl → rules.Taken calls e.owner) :
    Follows rules policy (calls ++ [decl]) pass := by
  refine ⟨h.policy_eq, ?_, ?_⟩
  · intro e level
    rw [h.pending_iff, RuleSet.taken_snoc_iff]
    constructor
    · rintro ⟨hlevel, hfree⟩
      refine ⟨hlevel, ?_⟩
      rintro (htaken | hmay)
      · exact hfree htaken
      · exact hfree (hnot e (RuleSet.mem_elements_iff.mpr ⟨level, hlevel⟩) hmay)
    · rintro ⟨hlevel, hfree⟩
      exact ⟨hlevel, fun htaken => hfree (.inl htaken)⟩
  · intro e
    rw [h.stale_iff]
    constructor
    · rintro ⟨hpolicy, he, i, taker, htaker, hdeclares⟩
      exact ⟨hpolicy, he, i, taker, RuleSet.taker_snoc_iff.mpr (.inl htaker), hdeclares⟩
    · rintro ⟨hpolicy, he, i, taker, htaker, hdeclares⟩
      rcases RuleSet.taker_snoc_iff.mp htaker with hold | ⟨hfree, _, _, hmay⟩
      · exact ⟨hpolicy, he, i, taker, hold, hdeclares⟩
      · exact absurd (hnot e he hmay) hfree

/-- A call that takes the bucket of its class removes the rules of the class from the pending ones,
and records those that name nothing in it. -/
theorem Follows.consume (h : Follows rules policy calls pass) {decl : ClassDecl} {bucket : Bucket}
    (hfree : ¬ rules.Taken calls decl.name) (hbucket : rules.bucket? decl.name = some bucket)
    (hclear : ¬ rules.AmbiguousOn decl) :
    Follows rules policy (calls ++ [decl]) (pass.consume bucket decl).pass := by
  have hmay : rules.MayTake decl.name decl := ⟨rfl, hclear⟩
  refine ⟨(policy_consume pass bucket decl).trans h.policy_eq, ?_, ?_⟩
  · intro e level
    rw [pending_consume, RuleSet.level?_withoutOwner, RuleSet.taken_snoc_iff]
    by_cases howner : e.owner = decl.name
    · rw [if_pos howner, howner]
      simp [hmay]
    · have hother : ¬ rules.MayTake e.owner decl := fun hmay' => howner hmay'.1.symm
      rw [if_neg howner, h.pending_iff]
      simp [hother]
  · intro e
    rw [stale_consume, h.policy_eq]
    by_cases hpolicy : policy = .failFast
    · rw [if_pos hpolicy, h.stale_iff]
      simp [hpolicy]
    · rw [if_neg hpolicy, List.mem_append, h.stale_iff, mem_leftover_iff hbucket hclear hfree]
      constructor
      · rintro (⟨_, he, i, taker, htaker, hnot⟩ | ⟨he, ⟨hfree', hmay'⟩, hnot⟩)
        · exact ⟨hpolicy, he, i, taker, RuleSet.taker_snoc_iff.mpr (.inl htaker), hnot⟩
        · refine ⟨hpolicy, he, calls.length, decl, ?_, hnot⟩
          exact RuleSet.taker_snoc_iff.mpr (.inr ⟨hfree', rfl, rfl, hmay'⟩)
      · rintro ⟨_, he, i, taker, htaker, hnot⟩
        rcases RuleSet.taker_snoc_iff.mp htaker with hold | ⟨hfree', _, rfl, hmay'⟩
        · exact .inl ⟨hpolicy, he, i, taker, hold, hnot⟩
        · exact .inr ⟨he, ⟨hfree', hmay'⟩, hnot⟩

/-- One more call keeps what is said of the pass true. -/
theorem Follows.step (h : Follows rules policy calls pass) (decl : ClassDecl) :
    Follows rules policy (calls ++ [decl]) (pass.transform decl).pass := by
  rcases h.transform_cases decl with ⟨hnone, htransform⟩ |
    ⟨_, _, _, _, _, hambiguous, htransform⟩ | ⟨hfree, bucket, hbucket, hclear, htransform⟩
  · rw [htransform]
    apply h.idle
    intro e he hmay
    have howner : decl.name = e.owner := hmay.1
    rw [← howner]
    exact hnone e he howner.symm
  · rw [htransform]
    apply h.idle
    intro e _ hmay
    exact absurd hambiguous hmay.2
  · rw [htransform]
    exact h.consume hfree hbucket hclear

/-- Every run keeps it. -/
theorem follows_after (rules : RuleSet) (policy : StalePolicy) (calls : List ClassDecl) :
    Follows rules policy calls ((start rules policy).after calls) := by
  induction calls using List.reverseRecOn with
  | nil => exact follows_start rules policy
  | append_singleton calls decl ih =>
      rw [after_snoc]
      exact ih.step decl

/-- A visit of a run is a call on a pass that follows the calls before it. -/
theorem exists_follows_of_visit {i : Nat} {visit : Visit}
    (hvisit : ((start rules policy).visits calls)[i]? = some visit) :
    ∃ decl pass, calls[i]? = some decl ∧ Follows rules policy (calls.take i) pass ∧
      visit = pass.transform decl := by
  rw [getElem?_visits] at hvisit
  obtain ⟨decl, hdecl, rfl⟩ := Option.map_eq_some_iff.mp hvisit
  exact ⟨decl, _, hdecl, follows_after rules policy (calls.take i), rfl⟩

end Pass

end AccessWidening
