import Mathlib.Data.List.Basic
import AccessWidening.Proofs.Declaration.Widened

/-!
What a bucket requests of a class, member by member and without a walk.

The walk uses rules up, so what it does to a member is a matter of the members before it. Of those
it is enough to know whether one of them has the same signature.
-/

namespace AccessWidening

namespace ClassDecl

instance (decl : ClassDecl) : (e : Element) → Decidable (decl.Declares e)
  | .classItself name => inferInstanceAs (Decidable (decl.name = name))
  | .field owner name (some descriptor) => inferInstanceAs (Decidable
      (decl.name = owner ∧ ∃ m ∈ decl.fields, m.name = name ∧ m.descriptor = descriptor))
  | .field owner name none => inferInstanceAs (Decidable
      (decl.name = owner ∧ ∃ m ∈ decl.fields, m.name = name))
  | .method owner name descriptor => inferInstanceAs (Decidable
      (decl.name = owner ∧ ∃ m ∈ decl.methods, m.name = name ∧ m.descriptor = descriptor))

end ClassDecl

namespace Bucket

/-- The level requested for a field that is declared after `earlier`: that of the rule with its
descriptor, unless a field of the same signature stands before it, joined with that of the rule
without descriptor. -/
def fieldLevel? (bucket : Bucket) (earlier : List Member) (m : Member) : Option Level :=
  let described :=
    if m.signature ∈ earlier.map Member.signature then none
    else bucket.rules.level? (.field bucket.owner m.name (some m.descriptor))
  Option.merge Level.join described (bucket.rules.level? (.field bucket.owner m.name none))

def methodLevel? (bucket : Bucket) (earlier : List Member) (m : Member) : Option Level :=
  if m.signature ∈ earlier.map Member.signature then none
  else bucket.rules.level? (.method bucket.owner m.name m.descriptor)

/-- The class with every access word widened by the level that is requested for it. -/
def requested (bucket : Bucket) (decl : ClassDecl) : ClassDecl where
  name := decl.name
  access := decl.access.widenBy (bucket.rules.level? (.classItself decl.name))
  fields := decl.fields.mapIdx fun i m => m.widen (bucket.fieldLevel? (decl.fields.take i) m)
  methods := decl.methods.mapIdx fun i m => m.widen (bucket.methodLevel? (decl.methods.take i) m)

def missed (bucket : Bucket) (decl : ClassDecl) : List Element :=
  bucket.members.filter fun e => ¬ decl.Declares e

end Bucket

open RuleSet

variable {rules : RuleSet} {decl : ClassDecl} {bucket : Bucket}

/-- A bucket has the levels of the set for its class. -/
theorem level?_rules_of_bucket? (hbucket : rules.bucket? decl.name = some bucket) {e : Element}
    (howner : e.owner = decl.name) : bucket.rules.level? e = rules.level? e := by
  rw [(bucket?_eq_some hbucket).2, level?_ofOwner, if_pos howner]

/-! ## Members -/

/-- A member is the first of its signature if the signature does not occur before it. -/
theorem Member.signature_ne_of_not_mem {members : List Member} {i : Nat} {m : Member}
    (hm : members[i]? = some m) (hnot : m.signature ∉ (members.take i).map Member.signature) :
    ∀ m', members[i]? = some m' → ∀ earlier ∈ members.take i, earlier.signature ≠ m'.signature := by
  intro m' hm' earlier hmem hsame
  obtain rfl := Option.some.inj (hm.symm.trans hm')
  exact hnot (List.mem_map.mpr ⟨earlier, hmem, hsame⟩)

theorem joinAll_requestsFor_fieldNames (rules : RuleSet) (owner : String) (m : Member) :
    Level.joinAll (rules.requestsFor (m.fieldNames owner)) =
      Option.merge Level.join (rules.level? (.field owner m.name (some m.descriptor)))
        (rules.level? (.field owner m.name none)) :=
  (congrArg Prod.fst (takes_takeField owner rules m)).symm

theorem joinAll_requestsFor_methodNames (rules : RuleSet) (owner : String) (m : Member) :
    Level.joinAll (rules.requestsFor (m.methodNames owner)) =
      rules.level? (.method owner m.name m.descriptor) :=
  (congrArg Prod.fst (takes_takeMethod owner rules m)).symm

/-- What the walk finds for a field is what is requested for it. If a field of the same signature
stands before it, then no rule gives the name without descriptor, as it would be ambiguous. -/
theorem joinAll_pending_field (hbucket : rules.bucket? decl.name = some bucket)
    (hclear : ¬ rules.AmbiguousOn decl) {i : Nat} {m : Member} (hm : decl.fields[i]? = some m) :
    Level.joinAll ((widenMembers (RuleSet.takeField · decl.name)
      (bucket.rules.filter Element.isMember) (decl.fields.take i)).pending.requestsFor
        (m.fieldNames decl.name)) = bucket.fieldLevel? (decl.fields.take i) m := by
  have howner := (bucket?_eq_some hbucket).1
  unfold Bucket.fieldLevel?
  rw [howner, level?_rules_of_bucket? hbucket rfl, level?_rules_of_bucket? hbucket rfl]
  by_cases hearlier : m.signature ∈ (decl.fields.take i).map Member.signature
  · obtain ⟨earlier, hmem, hsame⟩ := List.mem_map.mp hearlier
    have hbyName : rules.level? (.field decl.name m.name none) = none := by
      rw [level?_eq_none_iff]
      intro hrule
      exact ClassDecl.name_ne_of_not_ambiguousOn hclear hrule hm hmem (congrArg Prod.fst hsame)
    rw [requestsFor_pending_eq_nil (takes_takeField decl.name) _ hmem
      (Member.fieldNames_congr decl.name hsame), hbyName]
    simp only [if_pos hearlier]
    rfl
  · have hfirst : decl.IsFirst (.field i) := Member.signature_ne_of_not_mem hm hearlier
    rw [requestsFor_first_field hbucket hclear hm hfirst, joinAll_requestsFor_fieldNames]
    simp only [if_neg hearlier]

/-- What the walk finds for a method is what is requested for it. -/
theorem joinAll_pending_method (hbucket : rules.bucket? decl.name = some bucket) {i : Nat}
    {m : Member} (hm : decl.methods[i]? = some m) :
    Level.joinAll ((widenMembers (RuleSet.takeMethod · decl.name)
      (widenMembers (RuleSet.takeField · decl.name) (bucket.rules.filter Element.isMember)
        decl.fields).pending (decl.methods.take i)).pending.requestsFor
          (m.methodNames decl.name)) = bucket.methodLevel? (decl.methods.take i) m := by
  have howner := (bucket?_eq_some hbucket).1
  unfold Bucket.methodLevel?
  rw [howner, level?_rules_of_bucket? hbucket rfl]
  by_cases hearlier : m.signature ∈ (decl.methods.take i).map Member.signature
  · obtain ⟨earlier, hmem, hsame⟩ := List.mem_map.mp hearlier
    rw [requestsFor_pending_eq_nil (takes_takeMethod decl.name) _ hmem
      (Member.methodNames_congr decl.name hsame), if_pos hearlier]
    rfl
  · have hfirst : decl.IsFirst (.method i) := Member.signature_ne_of_not_mem hm hearlier
    rw [requestsFor_first_method hbucket hm hfirst, joinAll_requestsFor_methodNames,
      if_neg hearlier]

/-! ## The class -/

/-- If its rules are not ambiguous for a class, a bucket makes of it what it requests. -/
theorem decl_apply_eq_requested (hbucket : rules.bucket? decl.name = some bucket)
    (hclear : ¬ rules.AmbiguousOn decl) : (bucket.apply decl).decl = bucket.requested decl := by
  have howner := (bucket?_eq_some hbucket).1
  have haccess : (bucket.apply decl).decl.access =
      decl.access.widenBy (bucket.rules.level? (.classItself decl.name)) := by
    rw [bucket.access_apply, Bucket.accessChange, howner]
  have hfields : (bucket.apply decl).decl.fields = (bucket.requested decl).fields := by
    apply List.ext_getElem?
    intro i
    rw [bucket.fields_apply, Bucket.requested, howner,
      getElem?_members_widenMembers (takes_takeField decl.name), List.getElem?_mapIdx]
    cases hm : decl.fields[i]? with
    | none => rfl
    | some m => exact congrArg (some <| m.widen ·) (joinAll_pending_field hbucket hclear hm)
  have hmethods : (bucket.apply decl).decl.methods = (bucket.requested decl).methods := by
    apply List.ext_getElem?
    intro i
    rw [bucket.methods_apply, Bucket.requested, howner,
      getElem?_members_widenMembers (takes_takeMethod decl.name), List.getElem?_mapIdx]
    cases hm : decl.methods[i]? with
    | none => rfl
    | some m => exact congrArg (some <| m.widen ·) (joinAll_pending_method hbucket hm)
  calc (bucket.apply decl).decl
      = ⟨decl.name, (bucket.apply decl).decl.access, (bucket.apply decl).decl.fields,
          (bucket.apply decl).decl.methods⟩ := rfl
    _ = bucket.requested decl := by rw [haccess, hfields, hmethods]; rfl

/-- What a bucket has left after a class are the rules for members that the class does not have. -/
theorem members_leftover_apply (hbucket : rules.bucket? decl.name = some bucket) :
    (bucket.apply decl).leftover.members = bucket.missed decl := by
  have hincreasing : Increasing (bucket.missed decl) :=
    (bucket.rules.increasing_elements.filter _).filter _
  refine (Bucket.increasing_members _).eq_of_mem_iff hincreasing fun e => ?_
  rw [mem_leftover_apply hbucket, Bucket.missed, List.mem_filter, Bucket.members, List.mem_filter,
    Bucket.remaining, (bucket?_eq_some hbucket).2, mem_elements_ofOwner, decide_eq_true_iff]
  constructor
  · rintro ⟨hmem, howner, hnot⟩
    refine ⟨⟨⟨hmem, howner⟩, ?_⟩, hnot⟩
    -- a class declares itself
    cases e with
    | classItself name => exact absurd howner.symm hnot
    | field _ _ _ => rfl
    | method _ _ _ => rfl
  · rintro ⟨⟨⟨hmem, howner⟩, _⟩, hnot⟩
    exact ⟨hmem, howner, hnot⟩

end AccessWidening
