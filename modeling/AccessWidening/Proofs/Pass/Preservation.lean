import Mathlib.Data.List.Forall2
import AccessWidening.Proofs.Access.Justified
import AccessWidening.Proofs.Pass.Run

/-!
A pass never restricts access, whatever the rules, the policy and the calls. What a call changes in
a class, it changes in access words only, and each change is justified by rules of the initial set.
-/

namespace AccessWidening

namespace ClassDecl

/-- A class after a call, compared with the class before: its shape is the same, and the word at
every place changed only as the rules for that place justify. -/
def Preserved (rules : RuleSet) (before after : ClassDecl) : Prop :=
  before.SameShape after ∧ ∀ place word, before.access? place = some word →
    ∃ word', after.access? place = some word' ∧
      Flags.Justified (rules.requestsFor (before.namesAt place)) word word'

theorem preserved_self (rules : RuleSet) (decl : ClassDecl) : decl.Preserved rules decl := by
  refine ⟨.refl decl, ?_⟩
  intro place word hword
  exact ⟨word, hword, Flags.justified_self _ word⟩

/-- A bucket that is applied to a class for which it is not ambiguous preserves it. -/
theorem preserved_apply {rules : RuleSet} {decl : ClassDecl} {bucket : Bucket}
    (hbucket : rules.bucket? decl.name = some bucket) (hclear : ¬ rules.AmbiguousOn decl) :
    decl.Preserved rules (bucket.apply decl).decl := by
  refine ⟨sameShape_apply bucket decl, ?_⟩
  intro place word hword
  by_cases hfirst : decl.IsFirst place
  · refine ⟨word.widenBy (Level.joinAll (rules.requestsFor (decl.namesAt place))), ?_,
      Flags.justified_widenBy _ word⟩
    rw [access?_apply_of_isFirst hbucket hclear hfirst, hword]
    rfl
  · refine ⟨word, ?_, Flags.justified_self _ word⟩
    rw [access?_apply_of_not_isFirst hbucket hfirst, hword]

end ClassDecl

namespace Pass

variable {rules : RuleSet} {policy : StalePolicy} {calls : List ClassDecl} {pass : Pass}

/-- Whatever comes of a call, it preserves its class. -/
theorem Follows.preserved_transform (h : Follows rules policy calls pass) (decl : ClassDecl) :
    decl.Preserved rules (pass.transform decl).decl := by
  rcases h.transform_cases decl with ⟨_, htransform⟩ | ⟨_, _, _, _, _, _, htransform⟩ |
    ⟨_, bucket, hbucket, hclear, htransform⟩
  · rw [htransform]
    exact ClassDecl.preserved_self rules decl
  · rw [htransform]
    exact ClassDecl.preserved_self rules decl
  · rw [htransform, decl_consume]
    exact ClassDecl.preserved_apply hbucket hclear

theorem length_visits (pass : Pass) (calls : List ClassDecl) :
    (pass.visits calls).length = calls.length := by
  induction calls generalizing pass with
  | nil => rfl
  | cons decl rest ih =>
      simp only [visits, List.length_cons, ih]

/-- Access is never restricted. In every run, calls that fail included, each class comes out of
its call with the same members in the same order; no visibility is narrowed, `final` is lost or
gained only as rules for the place ask, no other bit changes, a changed word has at most one
visibility bit, and a word that no rule is about is the same as before. -/
theorem access_never_restricted (rules : RuleSet) (policy : StalePolicy)
    (calls : List ClassDecl) :
    List.Forall₂ (fun decl visit => decl.Preserved rules visit.decl) calls
      ((start rules policy).visits calls) := by
  apply List.forall₂_iff_get.mpr
  refine ⟨(length_visits _ calls).symm, ?_⟩
  intro i hcalls hvisits
  have hvisit : ((start rules policy).visits calls)[i]? =
      some (((start rules policy).visits calls)[i]) := List.getElem?_eq_getElem hvisits
  obtain ⟨decl, pass, hdecl, hfollows, heq⟩ := exists_follows_of_visit hvisit
  obtain rfl : calls[i] = decl :=
    Option.some.inj ((List.getElem?_eq_getElem hcalls).symm.trans hdecl)
  rw [List.get_eq_getElem, List.get_eq_getElem, heq]
  exact hfollows.preserved_transform calls[i]

end Pass

end AccessWidening
