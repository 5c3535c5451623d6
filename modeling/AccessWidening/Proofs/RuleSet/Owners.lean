import AccessWidening.Proofs.Declaration.Ambiguity
import AccessWidening.Proofs.Listing

/-!
The classes that rules are about, and what is left of them without the rules of one class.
-/

namespace AccessWidening

namespace RuleSet

variable {rules : RuleSet} {owner name : String}

theorem mem_elements_withoutOwner {e : Element} :
    e ∈ (rules.withoutOwner owner).elements ↔ e ∈ rules.elements ∧ e.owner ≠ owner := by
  unfold withoutOwner
  rw [mem_elements_filter, decide_eq_true_iff]

theorem mem_classNames : name ∈ rules.classNames ↔ ∃ e ∈ rules.elements, e.owner = name := by
  unfold classNames
  rw [mem_listing, List.mem_map]

/-- Rules are about a class exactly if they have a bucket for it. -/
theorem mem_classNames_iff_exists_bucket? :
    name ∈ rules.classNames ↔ ∃ bucket, rules.bucket? name = some bucket := by
  rw [← Option.ne_none_iff_exists', ne_eq, bucket?_eq_none_iff, mem_classNames]
  push Not
  exact Iff.rfl

theorem mem_classNames_withoutOwner :
    name ∈ (rules.withoutOwner owner).classNames ↔ name ∈ rules.classNames ∧ name ≠ owner := by
  simp only [mem_classNames, mem_elements_withoutOwner]
  constructor
  · rintro ⟨e, ⟨he, hother⟩, rfl⟩
    exact ⟨⟨e, he, rfl⟩, hother⟩
  · rintro ⟨⟨e, he, rfl⟩, hother⟩
    exact ⟨e, ⟨he, hother⟩, rfl⟩

theorem nodup_classNames (rules : RuleSet) : rules.classNames.Nodup :=
  (increasing_listing _).nodup

/-- Without the rules of a class there is one class less that rules are about. -/
theorem classCount_withoutOwner (h : owner ∈ rules.classNames) :
    (rules.withoutOwner owner).classCount + 1 = rules.classCount := by
  have hnodup : (owner :: (rules.withoutOwner owner).classNames).Nodup := by
    refine List.nodup_cons.mpr ⟨?_, nodup_classNames _⟩
    intro howner
    exact (mem_classNames_withoutOwner.mp howner).2 rfl
  have hperm : (owner :: (rules.withoutOwner owner).classNames).Perm rules.classNames := by
    refine (List.perm_ext_iff_of_nodup hnodup (nodup_classNames rules)).mpr ?_
    intro name
    rw [List.mem_cons, mem_classNames_withoutOwner]
    constructor
    · rintro (rfl | ⟨hname, _⟩)
      · exact h
      · exact hname
    · intro hname
      by_cases howner : name = owner
      · exact .inl howner
      · exact .inr ⟨hname, howner⟩
  exact hperm.length_eq

end RuleSet

end AccessWidening
