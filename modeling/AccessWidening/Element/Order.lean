import AccessWidening.Element.Basic

/-!
The order in which elements are listed: by kind, then owner, then name, then descriptor. Strings are
compared by code point, and an absent descriptor stands before every present one.

The order is linear, and elements that compare as equal are equal, so a set of elements has exactly
one strictly increasing listing.
-/

namespace AccessWidening.Element

/-- Compares kind, owner, name and descriptor in turn; the first difference decides. -/
def order : Element → Element → Ordering :=
  compareLex (compareOn fun e => e.kind.rank)
    (compareLex (compareOn owner) (compareLex (compareOn memberName) (compareOn descriptor?)))

instance : Ord Element := ⟨order⟩

instance : LT Element := ⟨fun a b => order a b = .lt⟩

instance (a b : Element) : Decidable (a < b) := inferInstanceAs (Decidable (order a b = .lt))

instance : Std.TransCmp order := by unfold order; infer_instance

instance : Std.TransOrd Element := inferInstanceAs (Std.TransCmp order)

theorem Kind.rank_injective {a b : Kind} (h : a.rank = b.rank) : a = b := by
  cases a <;> cases b <;> cases h <;> rfl

instance : Std.LawfulEqCmp order where
  eq_of_compare {a b} h := by
    simp only [order, compareLex_eq_eq, compareOn, Std.compare_eq_iff_eq] at h
    obtain ⟨hrank, howner, hname, hdescriptor⟩ := h
    exact eq_of_parts (Kind.rank_injective hrank) howner hname hdescriptor

instance : Std.LawfulEqOrd Element := inferInstanceAs (Std.LawfulEqCmp order)

theorem lt_iff_order {a b : Element} : a < b ↔ order a b = .lt := Iff.rfl

theorem order_eq_iff {a b : Element} : order a b = .eq ↔ a = b :=
  ⟨Std.LawfulEqCmp.eq_of_compare, fun h => h ▸ Std.ReflCmp.compare_self⟩

theorem order_gt_iff {a b : Element} : order a b = .gt ↔ b < a := Std.OrientedCmp.gt_iff_lt

theorem lt_irrefl (a : Element) : ¬ a < a := by
  rw [lt_iff_order, order_eq_iff.mpr rfl]
  decide

theorem lt_trans {a b c : Element} (hab : a < b) (hbc : b < c) : a < c :=
  Std.TransCmp.lt_trans hab hbc

theorem lt_asymm {a b : Element} (hab : a < b) : ¬ b < a := fun hba => lt_irrefl a (lt_trans hab hba)

theorem ne_of_lt {a b : Element} (h : a < b) : a ≠ b := fun e => lt_irrefl b (e ▸ h)

/-- Elements in increasing order, repetitions kept. -/
def sorted (elements : List Element) : List Element :=
  elements.mergeSort fun a b => order a b ≠ .gt

end AccessWidening.Element
