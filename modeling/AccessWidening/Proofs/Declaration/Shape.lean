import AccessWidening.Proofs.Declaration.Ambiguity

/-!
What depends on the shape of a class alone: which places are named by which elements, which of them
come first, what the class declares and what is ambiguous for it. None of it can be changed by
widening access words.
-/

namespace AccessWidening

/-- Members of the same signatures have the same names at each place. -/
theorem Member.flatMap_names_congr {members others : List Member} {names : Member → List Element}
    (i : Nat)
    (hnames : ∀ m other : Member, other.signature = m.signature → names other = names m)
    (hsame : members.map Member.signature = others.map Member.signature) :
    members[i]?.toList.flatMap names = others[i]?.toList.flatMap names := by
  have hget : members[i]?.map Member.signature = others[i]?.map Member.signature := by
    rw [← List.getElem?_map, hsame, List.getElem?_map]
  cases hm : members[i]? with
  | none =>
      rw [hm] at hget
      rw [Option.map_eq_none_iff.mp hget.symm]
  | some m =>
      rw [hm] at hget
      obtain ⟨other, hother, hsignature⟩ := Option.map_eq_some_iff.mp hget.symm
      simp [hother, hnames m other hsignature]

namespace ClassDecl

/-- A place of a member is first if its signature does not occur before it. -/
theorem isFirst_iff_signatures {members : List Member} {i : Nat} :
    (∀ m, members[i]? = some m → ∀ earlier ∈ members.take i, earlier.signature ≠ m.signature) ↔
      ∀ signature, (members.map Member.signature)[i]? = some signature →
        signature ∉ (members.map Member.signature).take i := by
  rw [← List.map_take, List.getElem?_map]
  constructor
  · rintro h signature hsignature hmem
    obtain ⟨m, hm, rfl⟩ := Option.map_eq_some_iff.mp hsignature
    obtain ⟨earlier, hearlier, hsame⟩ := List.mem_map.mp hmem
    exact h m hm earlier hearlier hsame
  · intro h m hm earlier hearlier hsame
    refine h m.signature (Option.map_eq_some_iff.mpr ⟨m, hm, rfl⟩) ?_
    exact List.mem_map.mpr ⟨earlier, hearlier, hsame⟩

namespace SameShape

variable {a b c : ClassDecl}

theorem symm (h : a.SameShape b) : b.SameShape a := ⟨h.1.symm, h.2.1.symm, h.2.2.symm⟩

theorem trans (h : a.SameShape b) (h' : b.SameShape c) : a.SameShape c :=
  ⟨h.1.trans h'.1, h.2.1.trans h'.2.1, h.2.2.trans h'.2.2⟩

theorem fieldDescriptors_eq (h : a.SameShape b) (name : String) :
    a.fieldDescriptors name = b.fieldDescriptors name := by
  have hsignatures (decl : ClassDecl) : decl.fieldDescriptors name =
      ((decl.fields.map Member.signature).filter (·.1 = name)).map Prod.snd := by
    rw [List.filter_map, List.map_map]
    rfl
  rw [hsignatures, hsignatures, h.2.1]

theorem ambiguity?_eq (h : a.SameShape b) (bucket : Bucket) :
    bucket.ambiguity? a = bucket.ambiguity? b := by
  unfold Bucket.ambiguity?
  simp only [h.fieldDescriptors_eq, h.1]

theorem ambiguousOn_iff (h : a.SameShape b) {rules : RuleSet} :
    rules.AmbiguousOn a ↔ rules.AmbiguousOn b := by
  unfold RuleSet.AmbiguousOn
  simp only [h.fieldDescriptors_eq, h.1]

theorem namesAt_eq (h : a.SameShape b) (place : Place) : a.namesAt place = b.namesAt place := by
  unfold namesAt
  rw [h.1]
  cases place with
  | classItself => rfl
  | field i => exact Member.flatMap_names_congr i (fun _ _ => Member.fieldNames_congr b.name) h.2.1
  | method i =>
      exact Member.flatMap_names_congr i (fun _ _ => Member.methodNames_congr b.name) h.2.2

theorem declares_iff (h : a.SameShape b) {e : Element} : a.Declares e ↔ b.Declares e := by
  rw [declares_iff_exists_place, declares_iff_exists_place]
  simp only [h.namesAt_eq]

theorem isFirst_iff (h : a.SameShape b) {place : Place} : a.IsFirst place ↔ b.IsFirst place := by
  unfold IsFirst
  cases place with
  | classItself => exact Iff.rfl
  | field i => simp only [isFirst_iff_signatures, h.2.1]
  | method i => simp only [isFirst_iff_signatures, h.2.2]

end SameShape

end ClassDecl

end AccessWidening
