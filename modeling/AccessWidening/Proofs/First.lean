import Mathlib.Data.List.Forall2

/-!
The first member of a list that has a property: which one a rule means when several would do, and
which call a class name belongs to.
-/

namespace AccessWidening

theorem mem_take_of_getElem? {α : Type} {xs : List α} {i j : Nat} {y : α}
    (hy : xs[j]? = some y) (hlt : j < i) : y ∈ xs.take i := by
  apply List.mem_iff_getElem?.mpr
  exact ⟨j, by rw [List.getElem?_take_of_lt hlt, hy]⟩

/-- `x` stands at place `i` of a list, has a property, and nothing before it has the property. -/
structure FirstAt {α : Type} (p : α → Prop) (xs : List α) (i : Nat) (x : α) : Prop where
  getElem?_eq : xs[i]? = some x
  holds : p x
  not_before : ∀ y ∈ xs.take i, ¬ p y

namespace FirstAt

variable {α : Type} {p : α → Prop} {xs : List α} {i j : Nat} {x y last : α}

theorem mem (h : FirstAt p xs i x) : x ∈ xs := List.mem_of_getElem? h.getElem?_eq

/-- Nothing that has the property stands before the first that has it. -/
theorem le_of_getElem? (h : FirstAt p xs i x) (hy : xs[j]? = some y) (hp : p y) : i ≤ j := by
  apply Nat.le_of_not_lt
  intro hlt
  exact h.not_before y (mem_take_of_getElem? hy hlt) hp

theorem unique (h : FirstAt p xs i x) (h' : FirstAt p xs j y) : i = j ∧ x = y := by
  obtain rfl := Nat.le_antisymm (h.le_of_getElem? h'.getElem?_eq h'.holds)
    (h'.le_of_getElem? h.getElem?_eq h.holds)
  exact ⟨rfl, Option.some.inj (h.getElem?_eq.symm.trans h'.getElem?_eq)⟩

/-- What holds of some first member holds of the first member. -/
theorem exists_iff (h : FirstAt p xs i x) (q : α → Prop) :
    (∃ j y, FirstAt p xs j y ∧ q y) ↔ q x := by
  constructor
  · rintro ⟨j, y, hfirst, hq⟩
    obtain ⟨_, rfl⟩ := h.unique hfirst
    exact hq
  · intro hq
    exact ⟨i, x, h, hq⟩

/-- With one more member, the first is the old one, or the new member if there was none. -/
theorem snoc_iff : FirstAt p (xs ++ [last]) i x ↔
    FirstAt p xs i x ∨ ((∀ y ∈ xs, ¬ p y) ∧ i = xs.length ∧ x = last ∧ p last) := by
  constructor
  · rintro ⟨hget, hp, hbefore⟩
    rcases Nat.lt_or_ge i xs.length with hlt | hge
    · left
      rw [List.getElem?_append_left hlt] at hget
      rw [List.take_append_of_le_length (Nat.le_of_lt hlt)] at hbefore
      exact ⟨hget, hp, hbefore⟩
    · right
      have hi : i = xs.length := by
        have hbound := (List.getElem?_eq_some_iff.mp hget).1
        simp only [List.length_append, List.length_singleton] at hbound
        omega
      subst hi
      obtain rfl : last = x := by simpa using hget
      refine ⟨?_, rfl, rfl, hp⟩
      intro y hy
      exact hbefore y (by simpa using hy)
  · rintro (⟨hget, hp, hbefore⟩ | ⟨hnone, rfl, rfl, hp⟩)
    · have hlt := (List.getElem?_eq_some_iff.mp hget).1
      refine ⟨?_, hp, ?_⟩
      · rw [List.getElem?_append_left hlt]
        exact hget
      · rw [List.take_append_of_le_length (Nat.le_of_lt hlt)]
        exact hbefore
    · refine ⟨by simp, hp, ?_⟩
      intro y hy
      exact hnone y (by simpa using hy)

/-- The first member is the head, or else the head is none and the first of the rest is meant. -/
theorem cons_iff : FirstAt p (y :: xs) i x ↔
    (i = 0 ∧ x = y ∧ p y) ∨ (¬ p y ∧ ∃ j, i = j + 1 ∧ FirstAt p xs j x) := by
  constructor
  · rintro ⟨hget, hp, hbefore⟩
    cases i with
    | zero =>
        obtain rfl := Option.some.inj hget
        exact .inl ⟨rfl, rfl, hp⟩
    | succ j =>
        obtain ⟨hnot, hrest⟩ := List.forall_mem_cons.mp (List.take_succ_cons ▸ hbefore)
        exact .inr ⟨hnot, j, rfl, hget, hp, hrest⟩
  · rintro (⟨rfl, rfl, hp⟩ | ⟨hnot, j, rfl, hget, hp, hbefore⟩)
    · exact ⟨rfl, hp, by simp⟩
    · refine ⟨hget, hp, ?_⟩
      rw [List.take_succ_cons, List.forall_mem_cons]
      exact ⟨hnot, hbefore⟩

/-- What the first member that has an answer answers: the head is asked first, and then the rest. -/
theorem exists_cons_iff {β : Type} {answers : α → β → Prop} {answer : β} :
    (∃ i x, FirstAt (fun x => ∃ answer, answers x answer) (y :: xs) i x ∧ answers x answer) ↔
      answers y answer ∨ (¬ ∃ answer, answers y answer) ∧
        ∃ i x, FirstAt (fun x => ∃ answer, answers x answer) xs i x ∧ answers x answer := by
  simp only [cons_iff]
  constructor
  · rintro ⟨_, x, ⟨_, rfl, _⟩ | ⟨hnone, j, _, hfirst⟩, hanswers⟩
    · exact .inl hanswers
    · exact .inr ⟨hnone, j, x, hfirst, hanswers⟩
  · rintro (hanswers | ⟨hnone, j, x, hfirst, hanswers⟩)
    · exact ⟨0, y, .inl ⟨rfl, rfl, answer, hanswers⟩, hanswers⟩
    · exact ⟨j + 1, x, .inr ⟨hnone, j, rfl, hfirst⟩, hanswers⟩

/-- Lists whose members correspond have corresponding first members. -/
theorem exists_of_forall₂ {β : Type} {related : α → β → Prop} {q : β → Prop} {ys : List β}
    (h : FirstAt p xs i x) (hlists : List.Forall₂ related xs ys)
    (hiff : ∀ x y, related x y → (p x ↔ q y)) : ∃ y, related x y ∧ FirstAt q ys i y := by
  induction hlists generalizing i with
  | nil => cases h.getElem?_eq
  | @cons head other rest others hhead _ ih =>
      rcases cons_iff.mp h with ⟨rfl, rfl, hp⟩ | ⟨hnot, j, rfl, hrest⟩
      · exact ⟨other, hhead, cons_iff.mpr (.inl ⟨rfl, rfl, (hiff x other hhead).mp hp⟩)⟩
      · obtain ⟨y, hy, hfirst⟩ := ih hrest
        refine ⟨y, hy, cons_iff.mpr (.inr ⟨?_, j, rfl, hfirst⟩)⟩
        rwa [← hiff head other hhead]

end FirstAt

/-- If any member of a list has a property, there is a first one. -/
theorem exists_firstAt {α : Type} {p : α → Prop} {xs : List α} (h : ∃ x ∈ xs, p x) :
    ∃ i x, FirstAt p xs i x := by
  induction xs with
  | nil =>
      obtain ⟨x, hx, _⟩ := h
      cases hx
  | cons head rest ih =>
      by_cases hhead : p head
      · exact ⟨0, head, FirstAt.cons_iff.mpr (.inl ⟨rfl, rfl, hhead⟩)⟩
      · have hrest : ∃ x ∈ rest, p x := by
          obtain ⟨x, hx, hp⟩ := h
          rcases List.mem_cons.mp hx with rfl | hx
          · exact absurd hp hhead
          · exact ⟨x, hx, hp⟩
        obtain ⟨i, x, hfirst⟩ := ih hrest
        exact ⟨i + 1, x, FirstAt.cons_iff.mpr (.inr ⟨hhead, i, rfl, hfirst⟩)⟩

end AccessWidening
