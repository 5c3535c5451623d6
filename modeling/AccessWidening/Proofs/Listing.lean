import Mathlib.Data.Finset.Card
import AccessWidening.Listing

/-!
How long a listing is: at most as long as the list it was made from, and exactly as long as the
number of different things in it. So a list without repetitions is only sorted.
-/

namespace AccessWidening

theorem Increasing.nodup {α : Type} [Ord α] [Std.LawfulEqOrd α] {xs : List α} (h : Increasing xs) :
    xs.Nodup := by
  refine h.imp ?_
  rintro x _ hlt rfl
  rw [Std.compare_eq_iff_eq.mpr rfl] at hlt
  cases hlt

/-- An increasing list is as long as the number of its different members. -/
theorem Increasing.length_eq_card {α : Type} [Ord α] [Std.LawfulEqOrd α] [DecidableEq α]
    {xs ys : List α} (h : Increasing xs) (hmem : ∀ x, x ∈ xs ↔ x ∈ ys) :
    xs.length = ys.toFinset.card := by
  have hsame : xs.toFinset = ys.toFinset := by
    ext x
    rw [List.mem_toFinset, List.mem_toFinset, hmem]
  rw [← hsame, List.toFinset_card_of_nodup h.nodup]

/-- Listing a list without repetitions only sorts it. -/
theorem listing_perm {α : Type} [Ord α] [Std.LawfulEqOrd α] [Std.TransOrd α] {xs : List α}
    (h : xs.Nodup) : (listing xs).Perm xs :=
  (List.perm_ext_iff_of_nodup (increasing_listing xs).nodup h).mpr fun _ => mem_listing

theorem length_insertDistinct_le {α : Type} [Ord α] (x : α) (xs : List α) :
    (insertDistinct x xs).length ≤ xs.length + 1 := by
  induction xs with
  | nil => exact Nat.le_refl _
  | cons y ys ih =>
      unfold insertDistinct
      split
      · exact Nat.le_refl _
      · exact Nat.le_succ _
      · simp only [List.length_cons]
        omega

theorem length_listing_le {α : Type} [Ord α] (xs : List α) :
    (listing xs).length ≤ xs.length := by
  unfold listing
  induction xs with
  | nil => exact Nat.le_refl _
  | cons x xs ih =>
      have hinsert := length_insertDistinct_le x (xs.foldr insertDistinct [])
      simp only [List.foldr_cons, List.length_cons]
      omega

end AccessWidening
