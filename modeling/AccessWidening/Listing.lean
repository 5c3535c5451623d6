/-!
Strictly increasing lists: the one way to write down a finite set of ordered things.

`listing` puts a list into this form. Its result has the members of the list, and two lists with
the same members have the same listing.
-/

namespace AccessWidening

/-- Every member of the list stands before all later ones in the order. -/
def Increasing {α : Type} [Ord α] (xs : List α) : Prop := xs.Pairwise fun a b => compare a b = .lt

/-- Puts `x` at its place in an increasing list, unless it is there already. -/
def insertDistinct {α : Type} [Ord α] (x : α) : List α → List α
  | [] => [x]
  | y :: ys =>
    match compare x y with
    | .lt => x :: y :: ys
    | .eq => y :: ys
    | .gt => y :: insertDistinct x ys

/-- The members of a list in increasing order, each once. -/
def listing {α : Type} [Ord α] (xs : List α) : List α := xs.foldr insertDistinct []

/-- Lists ordered by the same asymmetric relation are equal if they have the same members. -/
theorem eq_of_pairwise_of_mem_iff {α : Type} {r : α → α → Prop}
    (asymm : ∀ x y, r x y → ¬ r y x) {xs ys : List α} (hx : xs.Pairwise r) (hy : ys.Pairwise r)
    (h : ∀ z, z ∈ xs ↔ z ∈ ys) : xs = ys := by
  induction xs generalizing ys with
  | nil =>
    cases ys with
    | nil => rfl
    | cons y ys => exact absurd ((h y).mpr (by simp)) (by simp)
  | cons x xs ih =>
    cases ys with
    | nil => exact absurd ((h x).mp (by simp)) (by simp)
    | cons y ys =>
      obtain ⟨hxs, hx'⟩ := List.pairwise_cons.mp hx
      obtain ⟨hys, hy'⟩ := List.pairwise_cons.mp hy
      have heads : x = y := by
        obtain e | hxy := List.mem_cons.mp ((h x).mp (by simp))
        · exact e
        obtain e | hyx := List.mem_cons.mp ((h y).mpr (by simp))
        · exact e.symm
        exact absurd (hys x hxy) (asymm x y (hxs y hyx))
      subst heads
      congr 1
      refine ih hx' hy' fun z => ?_
      constructor
      · intro hz
        obtain rfl | hz' := List.mem_cons.mp ((h z).mp (List.mem_cons_of_mem _ hz))
        · exact absurd (hxs z hz) (asymm z z (hxs z hz))
        · exact hz'
      · intro hz
        obtain rfl | hz' := List.mem_cons.mp ((h z).mpr (List.mem_cons_of_mem _ hz))
        · exact absurd (hys z hz) (asymm z z (hys z hz))
        · exact hz'

section

variable {α : Type} [Ord α] [Std.LawfulEqOrd α]

theorem mem_insertDistinct {x z : α} {ys : List α} :
    z ∈ insertDistinct x ys ↔ z = x ∨ z ∈ ys := by
  induction ys with
  | nil => simp [insertDistinct]
  | cons y ys ih =>
    simp only [insertDistinct]
    split
    · simp
    · next h => rw [Std.compare_eq_iff_eq.mp h]; simp
    · rw [List.mem_cons, ih, List.mem_cons]
      exact or_left_comm

@[simp]
theorem mem_listing {xs : List α} {z : α} : z ∈ listing xs ↔ z ∈ xs := by
  induction xs with
  | nil => simp [listing]
  | cons x xs ih =>
    show z ∈ insertDistinct x (listing xs) ↔ _
    rw [mem_insertDistinct, ih, List.mem_cons]

private theorem not_lt_self (x : α) : compare x x ≠ .lt := by
  rw [Std.compare_eq_iff_eq.mpr rfl]
  decide

variable [Std.TransOrd α]

theorem increasing_insertDistinct {x : α} {ys : List α} (h : Increasing ys) :
    Increasing (insertDistinct x ys) := by
  induction ys with
  | nil => simp [insertDistinct, Increasing]
  | cons y ys ih =>
    obtain ⟨hy, hys⟩ := List.pairwise_cons.mp h
    simp only [insertDistinct]
    split
    · next hxy =>
      refine List.pairwise_cons.mpr ⟨fun z hz => ?_, h⟩
      obtain rfl | hz := List.mem_cons.mp hz
      · exact hxy
      · exact Std.TransCmp.lt_trans hxy (hy z hz)
    · exact h
    · next hxy =>
      refine List.pairwise_cons.mpr ⟨fun z hz => ?_, ih hys⟩
      obtain rfl | hz := mem_insertDistinct.mp hz
      · exact Std.OrientedCmp.lt_of_gt hxy
      · exact hy z hz

theorem increasing_listing (xs : List α) : Increasing (listing xs) := by
  induction xs with
  | nil => exact List.Pairwise.nil
  | cons x xs ih => exact increasing_insertDistinct ih

/-- Increasing lists with the same members are equal. -/
theorem Increasing.eq_of_mem_iff {xs ys : List α} (hx : Increasing xs) (hy : Increasing ys)
    (h : ∀ z, z ∈ xs ↔ z ∈ ys) : xs = ys :=
  eq_of_pairwise_of_mem_iff
    (fun _ _ hxy hyx => not_lt_self _ (Std.TransCmp.lt_trans hxy hyx)) hx hy h

/-- Two lists have the same listing exactly when they have the same members. -/
theorem listing_eq_iff {xs ys : List α} : listing xs = listing ys ↔ ∀ z, z ∈ xs ↔ z ∈ ys := by
  constructor
  · intro h z
    rw [← mem_listing, h, mem_listing]
  · intro h
    refine (increasing_listing xs).eq_of_mem_iff (increasing_listing ys) fun z => ?_
    rw [mem_listing, mem_listing, h]

/-- An increasing list is its own listing. -/
theorem Increasing.listing_eq {xs : List α} (h : Increasing xs) : listing xs = xs :=
  (increasing_listing xs).eq_of_mem_iff h fun _ => mem_listing

end

end AccessWidening
