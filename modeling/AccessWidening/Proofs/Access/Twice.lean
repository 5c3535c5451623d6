import AccessWidening.Proofs.Access.Widen

/-!
Words that are widened twice, compared with words that are widened once by both requests together.

All bits but `final` come out the same. The mark differs in one case only: a request that adds it
after another one dropped it has the last word, but of requests that are made together the one that
drops it wins. So to widen a word by the same request again changes nothing.
-/

namespace AccessWidening

/-- Whether a word carries `final` after a request, if `held` says whether it did before. -/
def Finality.settle (held : Bool) : Finality → Bool
  | unstated => held
  | addFinal => true
  | dropFinal => false

/-- Whether a request drops `final` and a later one adds it again. -/
def Level.Revokes (first second : Option Level) : Prop :=
  ∃ dropped added, first = some dropped ∧ second = some added ∧
    dropped.finality = .dropFinal ∧ added.finality = .addFinal

/-- Two requests in turn settle the mark as both together do, if the later one does not revoke the
earlier. -/
theorem Finality.settle_settle (held : Bool) {first second : Finality}
    (hnot : ¬ (first = .dropFinal ∧ second = .addFinal)) :
    second.settle (first.settle held) = (first.join second).settle held := by
  cases first with
  | unstated => cases second <;> rfl
  | addFinal => cases second <;> rfl
  | dropFinal =>
      cases second with
      | addFinal => exact absurd ⟨rfl, rfl⟩ hnot
      | _ => rfl

namespace Flags

theorem has_final_widen_eq_settle (flags : Flags) (request : Level) :
    (flags.widen request).has .final = request.finality.settle (flags.has .final) := by
  cases hfinality : request.finality with
  | unstated => exact has_final_widen_of_unstated flags hfinality
  | addFinal => exact has_final_widen_of_addFinal flags hfinality
  | dropFinal => exact has_final_widen_of_dropFinal flags hfinality

/-- Two requests in turn leave the bits other than `final` as both requests together do. -/
theorem has_widen_widen (flags : Flags) (first second : Level) {m : Modifier} (hm : m ≠ .final) :
    ((flags.widen first).widen second).has m = (flags.widen (first.join second)).has m := by
  have hvisibility : second.visibility.join (flags.widen first).visibility =
      (first.join second).visibility.join flags.visibility := by
    rw [visibility_widen, Level.visibility_join, ← Visibility.join_assoc,
      Visibility.join_comm second.visibility]
  obtain ⟨hpub, hprot, hpriv⟩ := has_visibility_widen (flags.widen first) second
  obtain ⟨hpub', hprot', hpriv'⟩ := has_visibility_widen flags (first.join second)
  rw [hvisibility] at hpub hprot hpriv
  by_cases hmpub : m = .pub
  · rw [hmpub, hpub, hpub']
  by_cases hmpriv : m = .priv
  · rw [hmpriv, hpriv, hpriv']
  by_cases hmprot : m = .prot
  · rw [hmprot, hprot, hprot']
  · rw [has_widen_of_ne _ _ hmpub hmpriv hmprot hm, has_widen_of_ne _ _ hmpub hmpriv hmprot hm,
      has_widen_of_ne _ _ hmpub hmpriv hmprot hm]

theorem has_final_widen_widen (flags : Flags) {first second : Level}
    (hnot : ¬ (first.finality = .dropFinal ∧ second.finality = .addFinal)) :
    ((flags.widen first).widen second).has .final =
      (flags.widen (first.join second)).has .final := by
  simp only [has_final_widen_eq_settle, Level.finality_join]
  exact Finality.settle_settle _ hnot

/-- A word that grants a request already is not changed by it. -/
@[simp]
theorem widen_widen (flags : Flags) (request : Level) :
    (flags.widen request).widen request = flags.widen request := by
  apply ext_has
  intro m
  by_cases hm : m = .final
  · subst hm
    rw [has_final_widen_widen flags, Level.join_self]
    rintro ⟨hdrop, hadd⟩
    rw [hdrop] at hadd
    cases hadd
  · rw [has_widen_widen flags request request hm, Level.join_self]

variable (flags : Flags) (first second : Option Level)

theorem has_widenBy_widenBy {m : Modifier} (hm : m ≠ .final) :
    ((flags.widenBy first).widenBy second).has m =
      (flags.widenBy (Option.merge Level.join first second)).has m := by
  cases first with
  | none => cases second <;> rfl
  | some a =>
      cases second with
      | none => rfl
      | some b => exact has_widen_widen flags a b hm

theorem has_final_widenBy_widenBy (hnot : ¬ Level.Revokes first second) :
    ((flags.widenBy first).widenBy second).has .final =
      (flags.widenBy (Option.merge Level.join first second)).has .final := by
  cases first with
  | none => cases second <;> rfl
  | some a =>
      cases second with
      | none => rfl
      | some b =>
          apply has_final_widen_widen
          rintro ⟨hdrop, hadd⟩
          exact hnot ⟨a, b, rfl, rfl, hdrop, hadd⟩

/-- A mark that is dropped and then added is there in the end, and it is not there if both are
requested together. -/
theorem has_final_of_revokes (h : Level.Revokes first second) :
    ((flags.widenBy first).widenBy second).has .final = true ∧
      (flags.widenBy (Option.merge Level.join first second)).has .final = false := by
  obtain ⟨a, b, rfl, rfl, hdrop, hadd⟩ := h
  constructor
  · exact has_final_widen_of_addFinal _ hadd
  · apply has_final_widen_of_dropFinal
    rw [Level.finality_join, hdrop, hadd]
    rfl

/-- Whether a word that came of two requests in turn is the same as one that came of both at once,
but for a mark that the second request revokes. -/
structure AgreeUnlessRevoked (first second : Option Level) (inTurn atOnce : Flags) : Prop where
  has_eq : ∀ m, m ≠ .final → inTurn.has m = atOnce.has m
  has_final_eq : ¬ Level.Revokes first second → inTurn.has .final = atOnce.has .final
  of_revokes : Level.Revokes first second →
    inTurn.has .final = true ∧ atOnce.has .final = false

theorem agreeUnlessRevoked_widenBy :
    AgreeUnlessRevoked first second ((flags.widenBy first).widenBy second)
      (flags.widenBy (Option.merge Level.join first second)) where
  has_eq _ := flags.has_widenBy_widenBy first second
  has_final_eq := flags.has_final_widenBy_widenBy first second
  of_revokes := flags.has_final_of_revokes first second

end Flags

@[simp]
theorem Member.widen_widen (m : Member) (request : Option Level) :
    (m.widen request).widen request = m.widen request := by
  cases request with
  | none => rfl
  | some level => simp [Member.widen]

end AccessWidening
