import AccessWidening.Proofs.Access.Widen

/-!
Changes of an access word that requests justify. Access is never narrowed, only the visibility bits
and `final` can change, and each change of `final` traces back to a request for it.
-/

namespace AccessWidening

namespace Flags

/-- A change of an access word that a list of requests justifies. -/
structure Justified (requests : List Level) (before after : Flags) : Prop where
  visibility_le : before.level.visibility ≤ after.level.visibility
  final_lost : before.has .final = true → after.has .final = false →
    ∃ request ∈ requests, request.finality = .dropFinal
  final_gained : before.has .final = false → after.has .final = true →
    (∃ request ∈ requests, request.finality = .addFinal) ∧
      ∀ request ∈ requests, request.finality ≠ .dropFinal
  other_bits : ∀ m, m ≠ .pub → m ≠ .priv → m ≠ .prot → m ≠ .final → after.has m = before.has m
  one_visibility : after ≠ before → after.visibilityBits.length ≤ 1
  unrequested : requests = [] → after = before

theorem justified_self (requests : List Level) (flags : Flags) :
    Justified requests flags flags where
  visibility_le := Nat.le_refl _
  final_lost hset hclear := by simp [hset] at hclear
  final_gained hclear hset := by simp [hclear] at hset
  other_bits _ _ _ _ _ := rfl
  one_visibility hchanged := absurd rfl hchanged
  unrequested _ := rfl

/-- A lost mark was asked to be dropped: the other two requests keep it. -/
theorem finality_of_final_lost {flags : Flags} {request : Level} (hset : flags.has .final = true)
    (hlost : (flags.widen request).has .final = false) : request.finality = .dropFinal := by
  cases hfinality : request.finality with
  | dropFinal => rfl
  | addFinal => simp [has_final_widen_of_addFinal flags hfinality] at hlost
  | unstated => simp [has_final_widen_of_unstated flags hfinality, hset] at hlost

/-- A gained mark was asked to be added: the other two requests do not add it. -/
theorem finality_of_final_gained {flags : Flags} {request : Level}
    (hclear : flags.has .final = false) (hgained : (flags.widen request).has .final = true) :
    request.finality = .addFinal := by
  cases hfinality : request.finality with
  | addFinal => rfl
  | dropFinal => simp [has_final_widen_of_dropFinal flags hfinality] at hgained
  | unstated => simp [has_final_widen_of_unstated flags hfinality, hclear] at hgained

/-- Widening by all requests of a list is justified by them. -/
theorem justified_widenBy (requests : List Level) (flags : Flags) :
    Justified requests flags (flags.widenBy (Level.joinAll requests)) := by
  cases hjoined : Level.joinAll requests with
  | none => exact justified_self requests flags
  | some joined =>
      refine ⟨?_, ?_, ?_, ?_, ?_, ?_⟩
      · have hvisibility : (flags.widen joined).level.visibility =
            joined.visibility.join flags.level.visibility := visibility_widen flags joined
        unfold widenBy
        rw [hvisibility]
        exact Visibility.right_le_join _ _
      · intro hset hlost
        exact (Level.joinAll_dropFinal_iff hjoined).mp (finality_of_final_lost hset hlost)
      · intro hclear hgained
        exact (Level.joinAll_addFinal_iff hjoined).mp (finality_of_final_gained hclear hgained)
      · intro m hpub hpriv hprot hfinal
        exact has_widen_of_ne flags joined hpub hpriv hprot hfinal
      · intro _
        exact length_visibilityBits_widen flags joined
      · intro hnil
        rw [hnil] at hjoined
        cases hjoined

end Flags

end AccessWidening
