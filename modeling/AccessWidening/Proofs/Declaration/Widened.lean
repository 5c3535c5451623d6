import AccessWidening.Proofs.Declaration.Ambiguity
import AccessWidening.Proofs.Declaration.Walk

/-!
What a bucket makes of a class, place by place, and which of its rules it leaves.

The rules left over are those whose element the class does not declare. If the rules are not
ambiguous for the class, the first member of each signature is widened by all rules that name it,
and a repeated member is not touched: the rule with its descriptor is used up, and a rule without
descriptor would have been ambiguous.
-/

namespace AccessWidening

open RuleSet

variable {rules : RuleSet} {decl : ClassDecl} {bucket : Bucket}

/-- The rules that the walk over the fields starts from. -/
theorem level?_members_of_bucket? (hbucket : rules.bucket? decl.name = some bucket) {e : Element}
    (howner : e.owner = decl.name) (hmember : e.isMember = true) :
    (bucket.rules.filter Element.isMember).level? e = rules.level? e := by
  rw [level?_filter, if_pos hmember, (bucket?_eq_some hbucket).2, level?_ofOwner, if_pos howner]

/-! ## The walks of a bucket -/

/-- Without rules of a kind, a bucket has no level for elements of that kind. -/
theorem level?_filter_eq_none_of_kind {kind : Element.Kind}
    (hnone : (bucket.rules.elements.any fun e => e.kind = kind) = false) {e : Element}
    (he : e.kind = kind) : (bucket.rules.filter Element.isMember).level? e = none := by
  rw [level?_eq_none_iff, mem_elements_filter]
  rintro ⟨hmem, _⟩
  have hother := List.any_eq_false.mp hnone e hmem
  exact hother (decide_eq_true he)

namespace Bucket

/-- Where a bucket does not walk over the fields, a walk would do nothing. -/
theorem walkFields_eq (bucket : Bucket) (fields : List Member) :
    bucket.walkFields fields = widenMembers (RuleSet.takeField · bucket.owner)
      (bucket.rules.filter Element.isMember) fields := by
  unfold walkFields
  split
  · rfl
  · next hnone =>
    refine (widenMembers_of_level?_eq_none (takes_takeField bucket.owner) ?_).symm
    intro m _ e he
    apply level?_filter_eq_none_of_kind (eq_false_of_ne_true hnone)
    exact Member.kind_of_mem_fieldNames he

/-- Where a bucket does not walk over the methods, a walk would do nothing either. -/
theorem walkMethods_eq (bucket : Bucket) (fields methods : List Member) :
    bucket.walkMethods (bucket.walkFields fields).pending methods =
      widenMembers (RuleSet.takeMethod · bucket.owner)
        (widenMembers (RuleSet.takeField · bucket.owner) (bucket.rules.filter Element.isMember)
          fields).pending methods := by
  rw [walkFields_eq]
  unfold walkMethods
  split
  · rfl
  · next hnone =>
    refine (widenMembers_of_level?_eq_none (takes_takeMethod bucket.owner) ?_).symm
    intro m _ e he
    rw [level?_pending_widenMembers (takes_takeField bucket.owner)]
    split
    · rfl
    · apply level?_filter_eq_none_of_kind (eq_false_of_ne_true hnone)
      exact Member.kind_of_mem_methodNames he

variable (bucket decl)

theorem access_apply :
    (bucket.apply decl).decl.access = decl.access.widenBy bucket.accessChange := by
  unfold apply
  cases bucket.accessChange <;> rfl

theorem fields_apply : (bucket.apply decl).decl.fields =
    (widenMembers (RuleSet.takeField · bucket.owner) (bucket.rules.filter Element.isMember)
      decl.fields).members :=
  congrArg Walk.members (bucket.walkFields_eq decl.fields)

theorem methods_apply : (bucket.apply decl).decl.methods =
    (widenMembers (RuleSet.takeMethod · bucket.owner)
      (widenMembers (RuleSet.takeField · bucket.owner) (bucket.rules.filter Element.isMember)
        decl.fields).pending decl.methods).members :=
  congrArg Walk.members (bucket.walkMethods_eq decl.fields decl.methods)

theorem rules_leftover_apply : (bucket.apply decl).leftover.rules =
    (widenMembers (RuleSet.takeMethod · bucket.owner)
      (widenMembers (RuleSet.takeField · bucket.owner) (bucket.rules.filter Element.isMember)
        decl.fields).pending decl.methods).pending :=
  congrArg Walk.pending (bucket.walkMethods_eq decl.fields decl.methods)

end Bucket

/-! ## What a bucket makes of a class -/

theorem sameShape_apply (bucket : Bucket) (decl : ClassDecl) :
    decl.SameShape (bucket.apply decl).decl := by
  refine ⟨rfl, ?_, ?_⟩
  · rw [bucket.fields_apply, map_signature_widenMembers]
  · rw [bucket.methods_apply, map_signature_widenMembers]

/-- A member element is declared exactly if it is among the names of a field or of a method. -/
theorem declares_iff_named {e : Element} (hmember : e.isMember = true) :
    decl.Declares e ↔ (∃ m ∈ decl.fields, e ∈ m.fieldNames decl.name) ∨
      ∃ m ∈ decl.methods, e ∈ m.methodNames decl.name := by
  rw [ClassDecl.declares_iff_exists_place]
  constructor
  · rintro ⟨place, he⟩
    cases place with
    | classItself =>
        obtain rfl := List.mem_singleton.mp he
        cases hmember
    | field i =>
        obtain ⟨m, hm, he⟩ := ClassDecl.mem_namesAt_field.mp he
        exact .inl ⟨m, List.mem_of_getElem? hm, he⟩
    | method i =>
        obtain ⟨m, hm, he⟩ := ClassDecl.mem_namesAt_method.mp he
        exact .inr ⟨m, List.mem_of_getElem? hm, he⟩
  · rintro (⟨m, hm, he⟩ | ⟨m, hm, he⟩)
    · obtain ⟨i, hi⟩ := List.mem_iff_getElem?.mp hm
      exact ⟨.field i, ClassDecl.mem_namesAt_field.mpr ⟨m, hi, he⟩⟩
    · obtain ⟨i, hi⟩ := List.mem_iff_getElem?.mp hm
      exact ⟨.method i, ClassDecl.mem_namesAt_method.mpr ⟨m, hi, he⟩⟩

theorem level?_leftover_apply (hbucket : rules.bucket? decl.name = some bucket) (e : Element) :
    (bucket.apply decl).leftover.rules.level? e =
      if ∃ m ∈ decl.methods, e ∈ m.methodNames decl.name then none
      else if ∃ m ∈ decl.fields, e ∈ m.fieldNames decl.name then none
      else if e.isMember = true then
        if e.owner = decl.name then rules.level? e else none
      else none := by
  obtain ⟨howner, hrules⟩ := bucket?_eq_some hbucket
  rw [bucket.rules_leftover_apply, level?_pending_widenMembers (takes_takeMethod bucket.owner),
    level?_pending_widenMembers (takes_takeField bucket.owner), level?_filter, hrules,
    level?_ofOwner, howner]

/-- Exactly the rules whose element the class does not declare are left over. -/
theorem mem_leftover_apply (hbucket : rules.bucket? decl.name = some bucket) {e : Element} :
    e ∈ (bucket.apply decl).leftover.members ↔
      e ∈ rules.elements ∧ e.owner = decl.name ∧ ¬ decl.Declares e := by
  rw [Bucket.mem_members, mem_elements_iff, level?_leftover_apply hbucket, mem_elements_iff]
  cases hmember : e.isMember with
  | false =>
      -- The rule for the class itself is always used, as a class declares itself.
      refine iff_of_false (fun h => Bool.false_ne_true h.2) ?_
      rintro ⟨_, hname, hnot⟩
      cases e with
      | classItself name => exact hnot hname.symm
      | field _ _ _ => cases hmember
      | method _ _ _ => cases hmember
  | true =>
      rw [declares_iff_named hmember, not_or, if_pos rfl, and_iff_left rfl]
      constructor
      · rintro ⟨level, hlevel⟩
        split at hlevel
        · cases hlevel
        · next hmethods =>
          split at hlevel
          · cases hlevel
          · next hfields =>
            split at hlevel
            · next heq => exact ⟨⟨level, hlevel⟩, heq, hfields, hmethods⟩
            · cases hlevel
      · rintro ⟨⟨level, hlevel⟩, heq, hfields, hmethods⟩
        refine ⟨level, ?_⟩
        rw [if_neg hmethods, if_neg hfields, if_pos heq]
        exact hlevel

theorem access?_field_apply (hbucket : rules.bucket? decl.name = some bucket) (i : Nat) :
    (bucket.apply decl).decl.access? (.field i) = decl.fields[i]?.map fun m =>
      m.access.widenBy (Level.joinAll
        ((widenMembers (RuleSet.takeField · decl.name) (bucket.rules.filter Element.isMember)
          (decl.fields.take i)).pending.requestsFor (m.fieldNames decl.name))) := by
  have howner := (bucket?_eq_some hbucket).1
  rw [ClassDecl.access?, bucket.fields_apply, howner,
    getElem?_members_widenMembers (takes_takeField decl.name), Option.map_map]
  simp only [Function.comp_def, Member.widen_eq]

theorem access?_method_apply (hbucket : rules.bucket? decl.name = some bucket) (i : Nat) :
    (bucket.apply decl).decl.access? (.method i) = decl.methods[i]?.map fun m =>
      m.access.widenBy (Level.joinAll
        ((widenMembers (RuleSet.takeMethod · decl.name)
          (widenMembers (RuleSet.takeField · decl.name) (bucket.rules.filter Element.isMember)
            decl.fields).pending
          (decl.methods.take i)).pending.requestsFor (m.methodNames decl.name))) := by
  have howner := (bucket?_eq_some hbucket).1
  rw [ClassDecl.access?, bucket.methods_apply, howner,
    getElem?_members_widenMembers (takes_takeMethod decl.name), Option.map_map]
  simp only [Function.comp_def, Member.widen_eq]

/-- The first field of a signature finds all rules that name it. -/
theorem requestsFor_first_field (hbucket : rules.bucket? decl.name = some bucket)
    (hclear : ¬ rules.AmbiguousOn decl) {i : Nat} {m : Member} (hm : decl.fields[i]? = some m)
    (hfirst : decl.IsFirst (.field i)) :
    (widenMembers (RuleSet.takeField · decl.name) (bucket.rules.filter Element.isMember)
      (decl.fields.take i)).pending.requestsFor (m.fieldNames decl.name) =
        rules.requestsFor (m.fieldNames decl.name) := by
  have hstart (e : Element) (he : e ∈ m.fieldNames decl.name) :
      (bucket.rules.filter Element.isMember).level? e = rules.level? e :=
    level?_members_of_bucket? hbucket (Member.owner_of_mem_fieldNames he)
      (Member.isMember_of_mem_fieldNames he)
  rw [requestsFor_pending_widenMembers (takes_takeField decl.name), requestsFor_congr hstart]
  intro e he
  rw [hstart e he]
  simp only [Member.fieldNames, List.mem_cons, List.not_mem_nil, or_false] at he
  rcases he with rfl | rfl
  · right
    intro earlier hearlier hnamed
    exact hfirst m hm earlier hearlier (Member.described_mem_fieldNames.mp hnamed)
  · cases hrule : rules.level? (.field decl.name m.name none) with
    | none => exact .inl rfl
    | some level =>
        right
        intro earlier hearlier hnamed
        exact ClassDecl.name_ne_of_not_ambiguousOn hclear (mem_elements_iff.mpr ⟨level, hrule⟩)
          hm hearlier (Member.byName_mem_fieldNames.mp hnamed)

/-- The first method of a signature finds the rule that names it; the fields left it alone. -/
theorem requestsFor_first_method (hbucket : rules.bucket? decl.name = some bucket) {i : Nat}
    {m : Member} (hm : decl.methods[i]? = some m) (hfirst : decl.IsFirst (.method i)) :
    (widenMembers (RuleSet.takeMethod · decl.name)
      (widenMembers (RuleSet.takeField · decl.name) (bucket.rules.filter Element.isMember)
        decl.fields).pending
      (decl.methods.take i)).pending.requestsFor (m.methodNames decl.name) =
        rules.requestsFor (m.methodNames decl.name) := by
  have hfields : (widenMembers (RuleSet.takeField · decl.name)
      (bucket.rules.filter Element.isMember) decl.fields).pending.requestsFor
        (m.methodNames decl.name) =
      (bucket.rules.filter Element.isMember).requestsFor (m.methodNames decl.name) := by
    apply requestsFor_pending_widenMembers (takes_takeField decl.name)
    intro e he
    exact .inr fun _ _ => Member.not_mem_fieldNames_of_mem_methodNames he
  rw [requestsFor_pending_widenMembers (takes_takeMethod decl.name), hfields]
  · apply requestsFor_congr
    intro e he
    exact level?_members_of_bucket? hbucket (Member.owner_of_mem_methodNames he)
      (Member.isMember_of_mem_methodNames he)
  · intro e he
    right
    obtain rfl := List.mem_singleton.mp he
    intro earlier hearlier hnamed
    exact hfirst m hm earlier hearlier (Member.described_mem_methodNames.mp hnamed)

theorem accessChange_eq (hbucket : rules.bucket? decl.name = some bucket) :
    bucket.accessChange = Level.joinAll (rules.requestsFor (decl.namesAt .classItself)) := by
  obtain ⟨howner, hrules⟩ := bucket?_eq_some hbucket
  have hlevel : bucket.accessChange = rules.level? (.classItself decl.name) := by
    rw [Bucket.accessChange, howner, hrules, level?_ofOwner]
    exact if_pos rfl
  rw [hlevel]
  unfold ClassDecl.namesAt requestsFor
  cases hrule : rules.level? (.classItself decl.name) <;> simp [hrule, Level.joinAll]

/-- If the rules are not ambiguous for a class, the word at the first place of each signature is
widened by all rules that name the place. -/
theorem access?_apply_of_isFirst (hbucket : rules.bucket? decl.name = some bucket)
    (hclear : ¬ rules.AmbiguousOn decl) {place : Place} (hfirst : decl.IsFirst place) :
    (bucket.apply decl).decl.access? place = (decl.access? place).map
      (·.widenBy (Level.joinAll (rules.requestsFor (decl.namesAt place)))) := by
  cases place with
  | classItself =>
      rw [ClassDecl.access?, bucket.access_apply, ← accessChange_eq hbucket]
      rfl
  | field i =>
      rw [access?_field_apply hbucket]
      cases hm : decl.fields[i]? with
      | none => simp [ClassDecl.access?, hm]
      | some m =>
          have hrequests := requestsFor_first_field hbucket hclear hm hfirst
          simp [ClassDecl.access?, ClassDecl.namesAt, hm, hrequests]
  | method i =>
      rw [access?_method_apply hbucket]
      cases hm : decl.methods[i]? with
      | none => simp [ClassDecl.access?, hm]
      | some m =>
          have hrequests := requestsFor_first_method hbucket hm hfirst
          simp [ClassDecl.access?, ClassDecl.namesAt, hm, hrequests]

/-- The word of a repeated member stays, whatever the rules: the first member of the signature
used up all rules that name it. -/
theorem access?_apply_of_not_isFirst (hbucket : rules.bucket? decl.name = some bucket)
    {place : Place} (hrepeated : ¬ decl.IsFirst place) :
    (bucket.apply decl).decl.access? place = decl.access? place := by
  cases place with
  | classItself => exact absurd trivial hrepeated
  | field i =>
      rw [access?_field_apply hbucket]
      cases hm : decl.fields[i]? with
      | none => simp [ClassDecl.access?, hm]
      | some m =>
          obtain ⟨earlier, hearlier, hsame⟩ :
              ∃ earlier ∈ decl.fields.take i, earlier.signature = m.signature := by
            simpa [ClassDecl.IsFirst, hm] using hrepeated
          have hrequests := requestsFor_pending_eq_nil (takes_takeField decl.name)
            (bucket.rules.filter Element.isMember) hearlier
            (Member.fieldNames_congr decl.name hsame)
          simp [ClassDecl.access?, hm, hrequests, Level.joinAll, Flags.widenBy]
  | method i =>
      rw [access?_method_apply hbucket]
      cases hm : decl.methods[i]? with
      | none => simp [ClassDecl.access?, hm]
      | some m =>
          obtain ⟨earlier, hearlier, hsame⟩ :
              ∃ earlier ∈ decl.methods.take i, earlier.signature = m.signature := by
            simpa [ClassDecl.IsFirst, hm] using hrepeated
          have hrequests := requestsFor_pending_eq_nil (takes_takeMethod decl.name)
            (widenMembers (RuleSet.takeField · decl.name)
              (bucket.rules.filter Element.isMember) decl.fields).pending hearlier
            (Member.methodNames_congr decl.name hsame)
          simp [ClassDecl.access?, hm, hrequests, Level.joinAll, Flags.widenBy]

end AccessWidening
