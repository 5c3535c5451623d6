import AccessWidening.Proofs.Access.Widen
import AccessWidening.Proofs.Declaration.Widened

/-!
When a rule is satisfied: what its level asks for holds of the access word at its target.

A word is widened by all rules for its place together. All of them are satisfied, but for one that
adds `final` to a field where the other rule for the field drops it.
-/

namespace AccessWidening

/-- Whether another rule for the same field drops `final`. Classes and methods are named by one
element only, so no other rule can do so for them. -/
def RuleSet.Overruled (rules : RuleSet) (decl : ClassDecl) (e : Element) (place : Place) : Prop :=
  (∃ i, place = .field i) ∧ ∃ other ∈ decl.namesAt place, other ≠ e ∧
    ∃ level, rules.level? other = some level ∧ level.finality = .dropFinal

/-- Whether an access word at a place grants what a rule for the place requests. -/
structure RuleSet.SatisfiedAt (rules : RuleSet) (decl : ClassDecl) (place : Place) (word : Flags)
    (e : Element) (level : Level) : Prop where
  visibility_le : level.visibility ≤ word.level.visibility
  final_clear : level.finality = .dropFinal → word.has .final = false
  final_set : level.finality = .addFinal →
    word.has .final = true ∨ rules.Overruled decl e place

namespace ClassDecl

variable {rules : RuleSet} {decl : ClassDecl} {place : Place} {e other : Element}

/-- Only a field has a second name. -/
theorem eq_field_of_mem_namesAt_of_ne (he : e ∈ decl.namesAt place)
    (hother : other ∈ decl.namesAt place) (hne : other ≠ e) : ∃ i, place = .field i := by
  cases place with
  | field i => exact ⟨i, rfl⟩
  | classItself =>
      obtain rfl := List.mem_singleton.mp he
      exact absurd (List.mem_singleton.mp hother) hne
  | method i =>
      obtain ⟨m, hm, he⟩ := mem_namesAt_method.mp he
      obtain ⟨m', hm', hother⟩ := mem_namesAt_method.mp hother
      obtain rfl := Option.some.inj (hm.symm.trans hm')
      obtain rfl := List.mem_singleton.mp he
      exact absurd (List.mem_singleton.mp hother) hne

/-- Widening a word by all rules for its place satisfies each of them. -/
theorem satisfiedAt_widenBy (word : Flags) (he : e ∈ decl.namesAt place) {level : Level}
    (hlevel : rules.level? e = some level) :
    rules.SatisfiedAt decl place
      (word.widenBy (Level.joinAll (rules.requestsFor (decl.namesAt place)))) e level := by
  have hrequest : level ∈ rules.requestsFor (decl.namesAt place) :=
    RuleSet.mem_requestsFor.mpr ⟨e, he, hlevel⟩
  cases hjoined : Level.joinAll (rules.requestsFor (decl.namesAt place)) with
  | none =>
      rw [Level.joinAll_eq_none_iff.mp hjoined] at hrequest
      cases hrequest
  | some joined =>
      refine ⟨?_, ?_, ?_⟩
      · have hvisibility : (word.widen joined).level.visibility =
            joined.visibility.join word.level.visibility := Flags.visibility_widen word joined
        unfold Flags.widenBy
        rw [hvisibility]
        have hle : level.visibility ≤ joined.visibility :=
          Level.visibility_le_joinAll hjoined level hrequest
        exact Nat.le_trans hle (Visibility.left_le_join _ _)
      · intro hdrop
        apply Flags.has_final_widen_of_dropFinal
        exact (Level.joinAll_dropFinal_iff hjoined).mpr ⟨level, hrequest, hdrop⟩
      · intro hadd
        by_cases hdropped : ∃ request ∈ rules.requestsFor (decl.namesAt place),
            request.finality = .dropFinal
        · right
          obtain ⟨request, hmem, hdrop⟩ := hdropped
          obtain ⟨other, hother, hrule⟩ := RuleSet.mem_requestsFor.mp hmem
          have hne : other ≠ e := by
            rintro rfl
            obtain rfl := Option.some.inj (hlevel.symm.trans hrule)
            rw [hadd] at hdrop
            cases hdrop
          exact ⟨eq_field_of_mem_namesAt_of_ne he hother hne, other, hother, hne, request,
            hrule, hdrop⟩
        · left
          apply Flags.has_final_widen_of_addFinal
          apply (Level.joinAll_addFinal_iff hjoined).mpr
          refine ⟨⟨level, hrequest, hadd⟩, ?_⟩
          intro request hmem hdrop
          exact hdropped ⟨request, hmem, hdrop⟩

theorem Target.access?_eq (h : decl.Target e place) : ∃ word, decl.access? place = some word := by
  have he := h.mem_namesAt
  cases place with
  | classItself => exact ⟨decl.access, rfl⟩
  | field i =>
      obtain ⟨m, hm, _⟩ := mem_namesAt_field.mp he
      exact ⟨m.access, by simp [access?, hm]⟩
  | method i =>
      obtain ⟨m, hm, _⟩ := mem_namesAt_method.mp he
      exact ⟨m.access, by simp [access?, hm]⟩

/-- Where rules are not ambiguous, a rule whose element is declared has a target: the first member
that it fits, which is the only one if it is given by name alone. -/
theorem exists_target_of_declares (hrule : e ∈ rules.elements)
    (hclear : ¬ rules.AmbiguousOn decl) (h : decl.Declares e) : ∃ place, decl.Target e place := by
  unfold Declares at h
  split at h
  · exact ⟨.classItself, h⟩
  · next owner name descriptor =>
    obtain ⟨howner, m, hm, hname, hdescriptor⟩ := h
    obtain ⟨i, first, hfirst⟩ := exists_firstAt (p := (·.signature = (name, descriptor)))
      ⟨m, hm, Prod.ext hname hdescriptor⟩
    exact ⟨.field i, howner, first, hfirst⟩
  · next owner name =>
    obtain ⟨rfl, m, hm, rfl⟩ := h
    obtain ⟨i, hi⟩ := List.mem_iff_getElem?.mp hm
    refine ⟨.field i, rfl, m, hi, rfl, ?_⟩
    -- Of two fields with the name, the later one would have an earlier one before it.
    intro j other hj hname
    rcases Nat.lt_trichotomy j i with hlt | rfl | hgt
    · have hbefore : other ∈ decl.fields.take i := mem_take_of_getElem? hj hlt
      exact absurd hname (name_ne_of_not_ambiguousOn hclear hrule hi hbefore)
    · rfl
    · have hbefore : m ∈ decl.fields.take j := mem_take_of_getElem? hi hgt
      rw [← hname] at hrule
      exact absurd hname.symm (name_ne_of_not_ambiguousOn hclear hrule hj hbefore)
  · next owner name descriptor =>
    obtain ⟨howner, m, hm, hname, hdescriptor⟩ := h
    obtain ⟨i, first, hfirst⟩ := exists_firstAt (p := (·.signature = (name, descriptor)))
      ⟨m, hm, Prod.ext hname hdescriptor⟩
    exact ⟨.method i, howner, first, hfirst⟩

end ClassDecl

end AccessWidening
