import AccessWidening.ClassDecl
import AccessWidening.Proofs.Access.Requests

/-!
What widening does to an access word, for every word and every request.

The word may be malformed: nothing here assumes that at most one visibility bit is set. A widened
word carries the bit of its visibility and no other visibility bit, `final` as the joined request
says, and every other bit as it was.
-/

namespace AccessWidening

namespace Flags

def visibilityBits (flags : Flags) : List Modifier :=
  [Modifier.pub, .prot, .priv].filter flags.has

def widenBy (flags : Flags) : Option Level → Flags
  | none => flags
  | some level => flags.widen level

theorem finality_level (flags : Flags) :
    flags.level.finality = if flags.has .final then .addFinal else .unstated := rfl

theorem has_withVisibility (flags : Flags) (v : Visibility) (m : Modifier) :
    (flags.withVisibility v).has m =
      match m with
      | .pub => decide (v = .pub)
      | .prot => decide (v = .prot)
      | .priv => decide (v = .priv)
      | _ => flags.has m := by
  cases m <;> simp [withVisibility]

theorem has_withFinality_of_ne (flags : Flags) (f : Finality) {m : Modifier} (hm : m ≠ .final) :
    (flags.withFinality f).has m = flags.has m := by
  cases f <;> simp [withFinality, hm]

theorem has_final_withFinality (flags : Flags) (f : Finality) :
    (flags.withFinality f).has .final =
      match f with
      | .unstated => flags.has .final
      | .addFinal => true
      | .dropFinal => false := by
  cases f <;> simp [withFinality]

/-- A request joined with the level of a word leaves the mark unstated only where the word does
not carry it, so the mark of the widened word is a matter of the joined finality alone. -/
theorem has_final_widen (flags : Flags) (request : Level) :
    (flags.widen request).has .final =
      decide ((request.join flags.level).finality = .addFinal) := by
  unfold widen
  rw [has_final_withFinality]
  cases hfinality : (request.join flags.level).finality with
  | addFinal => rfl
  | dropFinal => rfl
  | unstated =>
      have hrank : max request.finality.rank flags.level.finality.rank = 0 := by
        rw [← Finality.rank_join, ← Level.finality_join, hfinality]
        rfl
      have hheld : flags.has .final = false := by
        cases hbit : flags.has .final with
        | false => rfl
        | true =>
            have hone : flags.level.finality.rank = 1 := by
              rw [finality_level, hbit]
              rfl
            omega
      rw [has_withVisibility, hheld]
      rfl

theorem has_visibility_widen (flags : Flags) (request : Level) :
    (flags.widen request).has .pub =
        decide ((request.visibility.join flags.visibility) = .pub) ∧
      (flags.widen request).has .prot =
        decide ((request.visibility.join flags.visibility) = .prot) ∧
      (flags.widen request).has .priv =
        decide ((request.visibility.join flags.visibility) = .priv) := by
  unfold widen
  refine ⟨?_, ?_, ?_⟩
  all_goals
    rw [has_withFinality_of_ne _ _ (by decide), has_withVisibility]
    rfl

theorem has_widen_of_ne (flags : Flags) (request : Level) {m : Modifier}
    (hpub : m ≠ .pub) (hpriv : m ≠ .priv) (hprot : m ≠ .prot) (hfinal : m ≠ .final) :
    (flags.widen request).has m = flags.has m := by
  unfold widen
  rw [has_withFinality_of_ne _ _ hfinal, has_withVisibility]
  cases m <;> simp_all

/-- The visibility of a widened word is the wider one of the request and the word before. -/
theorem visibility_widen (flags : Flags) (request : Level) :
    (flags.widen request).visibility = request.visibility.join flags.visibility := by
  obtain ⟨hpub, hprot, hpriv⟩ := has_visibility_widen flags request
  cases hjoin : request.visibility.join flags.visibility <;>
    rw [hjoin] at hpub hprot hpriv <;>
    simp [visibility, hpub, hprot, hpriv]

/-- However many visibility bits a word carried, a widened word carries at most one. -/
theorem length_visibilityBits_widen (flags : Flags) (request : Level) :
    (flags.widen request).visibilityBits.length ≤ 1 := by
  obtain ⟨hpub, hprot, hpriv⟩ := has_visibility_widen flags request
  unfold visibilityBits
  cases hjoin : request.visibility.join flags.visibility <;>
    rw [hjoin] at hpub hprot hpriv <;>
    simp [hpub, hprot, hpriv]

/-- A request that drops the mark leaves it clear. -/
theorem has_final_widen_of_dropFinal (flags : Flags) {request : Level}
    (hdrop : request.finality = .dropFinal) : (flags.widen request).has .final = false := by
  have hjoin : (request.join flags.level).finality = .dropFinal := by
    apply Finality.rank_injective
    rw [Level.finality_join, Finality.rank_join, hdrop]
    cases flags.level.finality <;> rfl
  rw [has_final_widen, hjoin]
  rfl

/-- A request that adds the mark leaves it set. -/
theorem has_final_widen_of_addFinal (flags : Flags) {request : Level}
    (hadd : request.finality = .addFinal) : (flags.widen request).has .final = true := by
  have hheld : flags.level.finality.rank ≤ 1 := by
    rw [finality_level]
    cases flags.has .final <;> decide
  have hjoin : (request.join flags.level).finality = .addFinal := by
    apply Finality.rank_injective
    rw [Level.finality_join, Finality.rank_join, hadd]
    exact Nat.max_eq_left hheld
  rw [has_final_widen, hjoin]
  rfl

/-- A request that says nothing about the mark leaves it as it was. -/
theorem has_final_widen_of_unstated (flags : Flags) {request : Level}
    (hunstated : request.finality = .unstated) :
    (flags.widen request).has .final = flags.has .final := by
  have hjoin : (request.join flags.level).finality = flags.level.finality := by
    apply Finality.rank_injective
    rw [Level.finality_join, Finality.rank_join, hunstated]
    exact Nat.max_eq_right (Nat.zero_le _)
  rw [has_final_widen, hjoin, finality_level]
  cases flags.has .final <;> rfl

end Flags

theorem Member.widen_eq (m : Member) (request : Option Level) :
    m.widen request = { m with access := m.access.widenBy request } := by
  cases request <;> rfl

end AccessWidening
