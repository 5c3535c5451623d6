import AccessWidening.Proofs.RuleSet.Requests
import AccessWidening.RuleStore.ClassRules

/-!
Sorting by merging: a list of different things becomes strictly increasing, and a list of requests
for different elements becomes the entries of the set that they make.
-/

namespace AccessWidening

theorem pairwise_mergeSort_compare {α : Type} [Ord α] [Std.TransOrd α] (xs : List α) :
    (xs.mergeSort fun a b => compare a b ≠ .gt).Pairwise fun a b => compare a b ≠ .gt := by
  have hsorted : (xs.mergeSort fun a b => compare a b ≠ .gt).Pairwise
      fun a b => decide (compare a b ≠ .gt) = true := List.pairwise_mergeSort
    (fun a b c hab hbc => by
      simp only [decide_eq_true_iff, ne_eq, Ordering.ne_gt_iff_isLE] at hab hbc ⊢
      exact Std.TransCmp.isLE_trans hab hbc)
    (fun a b => by
      simp only [Bool.or_eq_true, decide_eq_true_iff, ne_eq, Std.OrientedCmp.gt_iff_lt]
      by_cases hba : compare b a = .lt
      · exact .inr (Std.OrientedCmp.not_lt_of_lt hba)
      · exact .inl hba)
    xs
  exact hsorted.imp decide_eq_true_iff.mp

/-- A sorted list of different things is strictly increasing. -/
theorem increasing_of_pairwise {α : Type} [Ord α] [Std.LawfulEqOrd α] {xs : List α}
    (hsorted : xs.Pairwise fun a b => compare a b ≠ .gt) (hdistinct : xs.Nodup) :
    Increasing xs := by
  refine (hsorted.and hdistinct).imp ?_
  rintro a b ⟨hle, hne⟩
  cases hab : compare a b with
  | lt => rfl
  | eq => exact absurd (Std.compare_eq_iff_eq.mp hab) hne
  | gt => exact absurd hab hle

theorem increasing_mergeSort {α : Type} [Ord α] [Std.TransOrd α] [Std.LawfulEqOrd α] {xs : List α}
    (hdistinct : xs.Nodup) : Increasing (xs.mergeSort fun a b => compare a b ≠ .gt) :=
  increasing_of_pairwise (pairwise_mergeSort_compare xs)
    ((List.mergeSort_perm xs _).symm.nodup hdistinct)

theorem mem_sortEntries {entries : List (Element × Level)} {entry : Element × Level} :
    entry ∈ sortEntries entries ↔ entry ∈ entries :=
  (List.mergeSort_perm entries _).mem_iff

theorem map_fst_sortEntries (entries : List (Element × Level)) :
    (sortEntries entries).map (·.1) = Element.sorted (entries.map (·.1)) :=
  List.map_mergeSort fun _ _ _ _ => rfl

theorem increasing_sortEntries {entries : List (Element × Level)}
    (hdistinct : (entries.map (·.1)).Nodup) :
    (sortEntries entries).Pairwise fun a b => a.1 < b.1 := by
  have hsorted : Increasing (Element.sorted (entries.map (·.1))) := increasing_mergeSort hdistinct
  rw [← map_fst_sortEntries] at hsorted
  exact List.pairwise_map.mp hsorted

/-- Requests for different elements are the entries of the set that they make. -/
theorem RuleSet.entries_requestAll_empty {requests : List (Element × Level)}
    (hdistinct : (requests.map (·.1)).Nodup) :
    (empty.requestAll requests).entries = sortEntries requests := by
  let made : RuleSet := ⟨sortEntries requests, increasing_sortEntries hdistinct⟩
  have hmade : empty.requestAll requests = made := by
    rw [← made.requestAll_entries]
    apply requestAll_congr
    intro request
    exact mem_sortEntries.symm
  rw [hmade]

end AccessWidening
