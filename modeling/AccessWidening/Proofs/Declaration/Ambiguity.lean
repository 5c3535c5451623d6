import AccessWidening.Pass.Ambiguity
import AccessWidening.Proofs.Declaration.Place

/-!
When rules are ambiguous for a class, said without reference to the search for such a rule, and
what follows for a class that they are not ambiguous for: at most one field carries a name that is
given without descriptor, so such a rule has a target as soon as it has a field.
-/

namespace AccessWidening

/-- Whether a rule names a field of the class without descriptor, and several fields carry the
name. -/
def RuleSet.AmbiguousOn (rules : RuleSet) (decl : ClassDecl) : Prop :=
  ∃ name, Element.field decl.name name none ∈ rules.elements ∧
    1 < (decl.fieldDescriptors name).length

namespace RuleSet

theorem bucket?_eq_none_iff {rules : RuleSet} {owner : String} :
    rules.bucket? owner = none ↔ ∀ e ∈ rules.elements, e.owner ≠ owner := by
  have hempty : (rules.ofOwner owner).isEmpty = true ↔
      ∀ e ∈ rules.elements, e.owner ≠ owner := by
    simp [isEmpty, ofOwner, filter, elements, List.filter_eq_nil_iff]
  unfold bucket?
  split
  · next h => exact iff_of_true rfl (hempty.mp h)
  · next h => exact iff_of_false (by simp) fun hall => h (hempty.mpr hall)

/-- The bucket of a class holds exactly the rules of the set for it and its members. -/
theorem bucket?_eq_some {rules : RuleSet} {owner : String} {bucket : Bucket}
    (h : rules.bucket? owner = some bucket) :
    bucket.owner = owner ∧ bucket.rules = rules.ofOwner owner := by
  unfold bucket? at h
  split at h
  · simp at h
  · obtain rfl := Option.some.inj h
    exact ⟨rfl, rfl⟩

theorem mem_elements_ofOwner {rules : RuleSet} {owner : String} {e : Element} :
    e ∈ (rules.ofOwner owner).elements ↔ e ∈ rules.elements ∧ e.owner = owner := by
  rw [ofOwner, mem_elements_filter, decide_eq_true_iff]

end RuleSet

namespace Bucket

/-- Whether a rule of a bucket gives a field name without descriptor, and the name is carried by two
fields of a class or more. -/
def LeavesOpen (bucket : Bucket) (decl : ClassDecl) (name : String) : Prop :=
  .field bucket.owner name none ∈ bucket.remaining ∧
    2 ≤ (decl.fields.filter (·.name = name)).length

def firstOpen? (order : List Element) (decl : ClassDecl) : Option AmbiguousField :=
  (order.filterMap Element.openFieldName?).findSome? fun name =>
    let candidates := decl.fieldDescriptors name
    if candidates.length > 1 then some ⟨decl.name, name, candidates⟩ else none

end Bucket

/-- What it means for a reported ambiguity that it is one of a bucket and a class: it names the
class, a field name that is left open, and the descriptors of all fields of that name, in the order
of declaration. -/
structure AmbiguousField.Describes (found : AmbiguousField) (bucket : Bucket) (decl : ClassDecl) :
    Prop where
  className_eq : found.className = decl.name
  leavesOpen : bucket.LeavesOpen decl found.name
  candidates_eq : found.candidates =
    (decl.fields.filter (·.name = found.name)).map Member.descriptor

namespace Bucket

variable {bucket : Bucket} {decl : ClassDecl} {order : List Element}

theorem openFieldName?_eq_some_iff (howned : ∀ e ∈ order, e.owner = bucket.owner) {name : String} :
    (∃ e ∈ order, e.openFieldName? = some name) ↔ .field bucket.owner name none ∈ order := by
  constructor
  · rintro ⟨e, he, hopen⟩
    unfold Element.openFieldName? at hopen
    split at hopen
    · obtain rfl := Option.some.inj hopen
      rwa [← howned _ he]
    · cases hopen
  · intro hmem
    exact ⟨_, hmem, rfl⟩

/-- What is reported of a bucket is so, in whatever order its rules are searched. -/
theorem describes_of_firstOpen? (horder : ∀ e, e ∈ order ↔ e ∈ bucket.remaining)
    {found : AmbiguousField} (hfound : firstOpen? order decl = some found) :
    found.Describes bucket decl := by
  have howned : ∀ e ∈ order, e.owner = bucket.owner :=
    fun e he => bucket.owned e ((horder e).mp he)
  obtain ⟨name, hname, hcandidates⟩ := List.exists_of_findSome?_eq_some hfound
  have hrule := (openFieldName?_eq_some_iff howned).mp (List.mem_filterMap.mp hname)
  dsimp only at hcandidates
  split at hcandidates
  · next hmany =>
    obtain rfl := Option.some.inj hcandidates
    rw [ClassDecl.fieldDescriptors, List.length_map] at hmany
    exact ⟨rfl, ⟨(horder _).mp hrule, hmany⟩, rfl⟩
  · cases hcandidates

/-- Something is reported of a bucket exactly if it leaves a name open, in whatever order its rules
are searched. -/
theorem exists_firstOpen?_iff (horder : ∀ e, e ∈ order ↔ e ∈ bucket.remaining) :
    (∃ found, firstOpen? order decl = some found) ↔ ∃ name, bucket.LeavesOpen decl name := by
  constructor
  · rintro ⟨found, hfound⟩
    exact ⟨found.name, (describes_of_firstOpen? horder hfound).leavesOpen⟩
  · rintro ⟨name, hrule, hmany⟩
    apply Option.ne_none_iff_exists'.mp
    intro hnone
    have hname : name ∈ order.filterMap Element.openFieldName? :=
      List.mem_filterMap.mpr ⟨_, (horder _).mpr hrule, rfl⟩
    have hquiet := List.findSome?_eq_none_iff.mp hnone name hname
    have hlength : 1 < (decl.fieldDescriptors name).length := by
      rwa [ClassDecl.fieldDescriptors, List.length_map]
    simp only [gt_iff_lt, hlength, if_true] at hquiet
    cases hquiet

end Bucket

namespace RuleSet

/-- Rules are ambiguous for a class exactly if their bucket leaves a field name of it open. -/
theorem ambiguousOn_iff_leavesOpen {rules : RuleSet} {decl : ClassDecl} {bucket : Bucket}
    (hbucket : rules.bucket? decl.name = some bucket) :
    rules.AmbiguousOn decl ↔ ∃ name, bucket.LeavesOpen decl name := by
  obtain ⟨howner, hrules⟩ := bucket?_eq_some hbucket
  have hmem (name : String) : .field bucket.owner name none ∈ bucket.remaining ↔
      .field decl.name name none ∈ rules.elements := by
    rw [Bucket.remaining, hrules, howner, mem_elements_ofOwner]
    exact and_iff_left rfl
  unfold AmbiguousOn Bucket.LeavesOpen ClassDecl.fieldDescriptors
  simp only [hmem, List.length_map]
  exact Iff.rfl

/-- The search of a bucket reports no ambiguity exactly where there is none. -/
theorem ambiguity?_eq_none_iff {rules : RuleSet} {decl : ClassDecl} {bucket : Bucket}
    (hbucket : rules.bucket? decl.name = some bucket) :
    bucket.ambiguity? decl = none ↔ ¬ rules.AmbiguousOn decl := by
  have hsome : (∃ found, bucket.ambiguity? decl = some found) ↔
      ∃ name, bucket.LeavesOpen decl name := Bucket.exists_firstOpen?_iff fun _ => Iff.rfl
  rw [ambiguousOn_iff_leavesOpen hbucket, ← hsome, ← Option.ne_none_iff_exists', not_not]

/-- Ambiguity is a matter of the rules for one class, so sets that agree on them agree on it. -/
theorem ambiguousOn_congr {a b : RuleSet} {decl : ClassDecl}
    (h : ∀ e, e.owner = decl.name → a.level? e = b.level? e) :
    a.AmbiguousOn decl ↔ b.AmbiguousOn decl := by
  have hmem (name : String) : Element.field decl.name name none ∈ a.elements ↔
      Element.field decl.name name none ∈ b.elements := by
    rw [mem_elements_iff, mem_elements_iff, h _ rfl]
  unfold AmbiguousOn
  simp only [hmem]

end RuleSet

namespace ClassDecl

/-- A field and an earlier one of its name make two descriptors for the name. -/
theorem one_lt_length_fieldDescriptors {decl : ClassDecl} {i : Nat} {m earlier : Member}
    (hm : decl.fields[i]? = some m) (hearlier : earlier ∈ decl.fields.take i)
    (hname : earlier.name = m.name) : 1 < (decl.fieldDescriptors m.name).length := by
  obtain ⟨hi, hget⟩ := List.getElem?_eq_some_iff.mp hm
  have hlist : decl.fields = decl.fields.take i ++ m :: decl.fields.drop (i + 1) := by
    rw [← hget, ← List.drop_eq_getElem_cons hi, List.take_append_drop]
  have hbefore : 0 < ((decl.fields.take i).filter (·.name = m.name)).length :=
    List.length_pos_of_mem (List.mem_filter.mpr ⟨hearlier, by simpa using hname⟩)
  have hsplit : decl.fields.filter (·.name = m.name) =
      (decl.fields.take i).filter (·.name = m.name) ++ m ::
        (decl.fields.drop (i + 1)).filter (·.name = m.name) := by
    refine (congrArg (List.filter (·.name = m.name)) hlist).trans ?_
    rw [List.filter_append, List.filter_cons_of_pos (by simp)]
  rw [fieldDescriptors, List.length_map, hsplit, List.length_append, List.length_cons]
  omega

/-- Where rules are not ambiguous, a rule without descriptor excludes a second field of its
name. -/
theorem name_ne_of_not_ambiguousOn {rules : RuleSet} {decl : ClassDecl} {i : Nat}
    {m earlier : Member} (hclear : ¬ rules.AmbiguousOn decl)
    (hrule : Element.field decl.name m.name none ∈ rules.elements)
    (hm : decl.fields[i]? = some m) (hearlier : earlier ∈ decl.fields.take i) :
    earlier.name ≠ m.name := by
  intro hname
  exact hclear ⟨m.name, hrule, one_lt_length_fieldDescriptors hm hearlier hname⟩

end ClassDecl

end AccessWidening
