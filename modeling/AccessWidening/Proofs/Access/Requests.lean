import AccessWidening.Access.Level

/-!
Several requests for one declaration. They act as one, the join of all of them:
its visibility is the widest that was asked for, and its finality the strongest.
-/

namespace AccessWidening

namespace Level

/-- The one level that stands for a list of requests; no requests, no level. -/
def joinAll : List Level → Option Level
  | [] => none
  | request :: rest => some (joinHeld (joinAll rest) request)

theorem joinAll_eq_none_iff {requests : List Level} :
    joinAll requests = none ↔ requests = [] := by
  cases requests with
  | nil => simp [joinAll]
  | cons request rest => simp [joinAll]

/-- Requests that all agree join to the level that they agree on. -/
theorem joinAll_eq_some_of_agree {requests : List Level} {level : Level} (hne : requests ≠ [])
    (hagree : ∀ request ∈ requests, request = level) :
    joinAll requests = some level := by
  induction requests with
  | nil => exact absurd rfl hne
  | cons first rest ih =>
      obtain ⟨rfl, hrest⟩ := List.forall_mem_cons.mp hagree
      by_cases hnil : rest = []
      · subst hnil
        rfl
      · rw [joinAll, ih hnil hrest, joinHeld_some, join_self]

theorem visibility_le_joinAll {requests : List Level} {joined : Level}
    (hjoined : joinAll requests = some joined) :
    ∀ request ∈ requests, request.visibility ≤ joined.visibility := by
  induction requests generalizing joined with
  | nil => simp
  | cons first rest ih =>
      obtain rfl := Option.some.inj hjoined
      intro request hmem
      cases hrest : joinAll rest with
      | none =>
          obtain rfl := joinAll_eq_none_iff.mp hrest
          obtain rfl := List.mem_singleton.mp hmem
          exact Nat.le_refl _
      | some held =>
          rcases List.mem_cons.mp hmem with rfl | hmem
          · exact Visibility.right_le_join held.visibility request.visibility
          · have hle : request.visibility ≤ held.visibility := ih hrest request hmem
            exact Nat.le_trans hle (Visibility.left_le_join held.visibility first.visibility)

/-- The rank of the joined finality is the highest rank among the requests. -/
theorem finality_rank_joinAll {requests : List Level} {joined : Level}
    (hjoined : joinAll requests = some joined) :
    (∀ request ∈ requests, request.finality.rank ≤ joined.finality.rank) ∧
      ∃ request ∈ requests, request.finality = joined.finality := by
  induction requests generalizing joined with
  | nil => simp [joinAll] at hjoined
  | cons first rest ih =>
      obtain rfl := Option.some.inj hjoined
      cases hrest : joinAll rest with
      | none =>
          obtain rfl := joinAll_eq_none_iff.mp hrest
          simp
      | some held =>
          obtain ⟨hle, strongest, hmem, hstrongest⟩ := ih hrest
          have hrank : (held.join first).finality.rank =
              max held.finality.rank first.finality.rank :=
            Finality.rank_join held.finality first.finality
          simp only [joinHeld_some]
          constructor
          · intro request hrequest
            rw [hrank]
            rcases List.mem_cons.mp hrequest with rfl | hrequest
            · exact Nat.le_max_right _ _
            · exact Nat.le_trans (hle request hrequest) (Nat.le_max_left _ _)
          · by_cases hfirst : held.finality.rank ≤ first.finality.rank
            · refine ⟨first, by simp, Finality.rank_injective ?_⟩
              rw [hrank, Nat.max_eq_right hfirst]
            · refine ⟨strongest, by simp [hmem], Finality.rank_injective ?_⟩
              rw [hrank, hstrongest, Nat.max_eq_left (by omega)]

theorem joinAll_dropFinal_iff {requests : List Level} {joined : Level}
    (hjoined : joinAll requests = some joined) :
    joined.finality = .dropFinal ↔ ∃ request ∈ requests, request.finality = .dropFinal := by
  obtain ⟨hle, strongest, hmem, hstrongest⟩ := finality_rank_joinAll hjoined
  constructor
  · intro hdrop
    exact ⟨strongest, hmem, hstrongest.trans hdrop⟩
  · rintro ⟨request, hrequest, hdrop⟩
    have hrank := hle request hrequest
    rw [hdrop] at hrank
    cases hfinality : joined.finality with
    | dropFinal => rfl
    | _ => simp [hfinality, Finality.rank] at hrank

theorem joinAll_addFinal_iff {requests : List Level} {joined : Level}
    (hjoined : joinAll requests = some joined) :
    joined.finality = .addFinal ↔
      (∃ request ∈ requests, request.finality = .addFinal) ∧
        ∀ request ∈ requests, request.finality ≠ .dropFinal := by
  obtain ⟨hle, strongest, hmem, hstrongest⟩ := finality_rank_joinAll hjoined
  constructor
  · intro hadd
    refine ⟨⟨strongest, hmem, hstrongest.trans hadd⟩, ?_⟩
    intro request hrequest hdrop
    have hrank := hle request hrequest
    simp [hdrop, hadd, Finality.rank] at hrank
  · rintro ⟨⟨request, hrequest, hadd⟩, hnodrop⟩
    have hrank := hle request hrequest
    rw [hadd] at hrank
    cases hfinality : joined.finality with
    | addFinal => rfl
    | unstated => simp [hfinality, Finality.rank] at hrank
    | dropFinal => exact absurd (hstrongest.trans hfinality) (hnodrop strongest hmem)

/-- A level is above a join when it is above both of its parts. -/
theorem join_join_eq_iff {a b bound : Level} :
    (a.join b).join bound = bound ↔ a.join bound = bound ∧ b.join bound = bound := by
  constructor
  · intro h
    constructor
    · rw [← h, ← join_assoc, ← join_assoc, join_self]
    · rw [← h, join_comm a b, ← join_assoc, ← join_assoc, join_self]
  · rintro ⟨ha, hb⟩
    rw [join_assoc, hb, ha]

/-- The join of several requests is the least level above all of them. -/
theorem joinAll_join_eq_iff {requests : List Level} {joined : Level}
    (hjoined : joinAll requests = some joined) (bound : Level) :
    joined.join bound = bound ↔ ∀ request ∈ requests, request.join bound = bound := by
  induction requests generalizing joined with
  | nil => simp [joinAll] at hjoined
  | cons first rest ih =>
      obtain rfl := Option.some.inj hjoined
      rw [List.forall_mem_cons]
      cases hrest : joinAll rest with
      | none =>
          obtain rfl := joinAll_eq_none_iff.mp hrest
          simp
      | some held => rw [joinHeld_some, join_join_eq_iff, ih hrest, and_comm]

/-- Neither the order nor the number of times that a level is requested matters. -/
theorem joinAll_congr {requests others : List Level}
    (hsame : ∀ level, level ∈ requests ↔ level ∈ others) : joinAll requests = joinAll others := by
  have hnil : joinAll requests = none ↔ joinAll others = none := by
    simp only [joinAll_eq_none_iff, List.eq_nil_iff_forall_not_mem, hsame]
  cases hjoined : joinAll requests with
  | none => exact (hnil.mp hjoined).symm
  | some joined =>
      cases hother : joinAll others with
      | none =>
          rw [hnil.mpr hother] at hjoined
          cases hjoined
      | some other =>
          have hle : joined.join other = other := by
            rw [joinAll_join_eq_iff hjoined]
            intro request hmem
            exact (joinAll_join_eq_iff hother other).mp (join_self other) request
              ((hsame request).mp hmem)
          have hge : other.join joined = joined := by
            rw [joinAll_join_eq_iff hother]
            intro request hmem
            exact (joinAll_join_eq_iff hjoined joined).mp (join_self joined) request
              ((hsame request).mpr hmem)
          rw [← hle, join_comm, hge]

end Level

end AccessWidening
