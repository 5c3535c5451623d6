import Mathlib.Data.List.Destutter
import AccessWidening.Proofs.RuleStore.Sorting
import AccessWidening.Stale

/-!
Elements are ordered as their parts are, constructor by constructor, and texts as their code points
are. The order is linear down to equality of elements, so a list of elements that is sorted and rid
of repeated neighbours says which elements were in it, and nothing else.
-/

namespace AccessWidening

/-- A comparison that puts everything in one line: any two things are before, behind or equal to
each other, and only a thing itself is equal to it. -/
structure IsLinear {α : Type} (order : α → α → Ordering) : Prop where
  trans : ∀ {a b c : α}, order a b ≠ .gt → order b c ≠ .gt → order a c ≠ .gt
  swap : ∀ a b : α, order b a = (order a b).swap
  eq_iff : ∀ {a b : α}, order a b = .eq ↔ a = b

/-! ## Texts -/

def codePoints (text : String) : List Nat := text.toList.map Char.toNat

def compareTexts (a b : String) : Ordering := compare (codePoints a) (codePoints b)

theorem compareTexts_of_lt {a b : String} (h : a < b) : compareTexts a b = .lt := by
  have hchars {cs ds : List Char} (hlt : cs < ds) :
      compare (cs.map Char.toNat) (ds.map Char.toNat) = .lt := by
    induction hlt with
    | nil => rfl
    | cons _ ih => simpa [List.compare_cons_cons] using ih
    | @rel c _ d _ hcd =>
        have hpoints : compare c.toNat d.toNat = .lt := Nat.compare_eq_lt.mpr hcd
        simp [List.compare_cons_cons, hpoints]
  exact hchars h

theorem compare_of_lt {a b : String} (h : a < b) : compare a b = .lt := by
  change compareOfLessAndEq a b = .lt
  rw [compareOfLessAndEq, if_pos h]

/-- Comparing texts is comparing their code points. -/
theorem compare_eq_compareTexts (a b : String) : compare a b = compareTexts a b := by
  rcases Std.lt_trichotomy a b with hlt | rfl | hgt
  · rw [compare_of_lt hlt, compareTexts_of_lt hlt]
  · rw [Std.compare_eq_iff_eq.mpr rfl, compareTexts, Std.compare_eq_iff_eq.mpr rfl]
  · have hpoints : compareTexts a b = (compareTexts b a).swap :=
      Std.OrientedOrd.eq_swap (a := codePoints a) (b := codePoints b)
    rw [hpoints, compareTexts_of_lt hgt, Std.OrientedOrd.eq_swap (a := a), compare_of_lt hgt]

namespace Element

/-! ## Parts -/

def compareDescriptors : Option String → Option String → Ordering
  | none, none => .eq
  | none, some _ => .lt
  | some _, none => .gt
  | some a, some b => compareTexts a b

/-- Classes come before fields, and fields before methods. Two elements of one kind are ordered by
owner, then by name, then by descriptor. -/
def compareParts : Element → Element → Ordering
  | classItself a, classItself b => compareTexts a b
  | classItself _, field .. => .lt
  | classItself _, method .. => .lt
  | field .., classItself _ => .gt
  | field owner name descriptor, field owner' name' descriptor' =>
    (compareTexts owner owner').then
      ((compareTexts name name').then (compareDescriptors descriptor descriptor'))
  | field .., method .. => .lt
  | method .., classItself _ => .gt
  | method .., field .. => .gt
  | method owner name descriptor, method owner' name' descriptor' =>
    (compareTexts owner owner').then
      ((compareTexts name name').then (compareTexts descriptor descriptor'))

theorem compare_eq_compareDescriptors (a b : Option String) :
    compare a b = compareDescriptors a b := by
  cases a with
  | none => cases b <;> rfl
  | some a =>
      cases b with
      | none => rfl
      | some b => exact compare_eq_compareTexts a b

/-- The order of elements is that of their parts. -/
theorem order_eq_compareParts (a b : Element) : order a b = a.compareParts b := by
  have hparts : order a b = (compare a.kind.rank b.kind.rank).then
      ((compareTexts a.owner b.owner).then ((compareTexts a.memberName b.memberName).then
        (compareDescriptors a.descriptor? b.descriptor?))) := by
    simp only [order, compareLex, compareOn, compare_eq_compareTexts,
      compare_eq_compareDescriptors]
  rw [hparts]
  cases a with
  | classItself name =>
      cases b with
      | classItself name' => exact Ordering.then_eq
      | field owner' name' descriptor' => rfl
      | method owner' name' descriptor' => rfl
  | field owner name descriptor => cases b <;> rfl
  | method owner name descriptor => cases b <;> rfl

theorem isLinear_order : IsLinear order where
  trans hab hbc := by
    rw [ne_eq, Ordering.ne_gt_iff_isLE] at hab hbc ⊢
    exact Std.TransCmp.isLE_trans hab hbc
  swap a b := Std.OrientedCmp.eq_swap
  eq_iff := order_eq_iff

/-! ## Lists -/

/-- A list of elements, sorted, and rid of every element that repeats the one before it. -/
def sortedDistinct (elements : List Element) : List Element :=
  (sorted elements).destutter (· ≠ ·)

/-- A sorted list without repeated neighbours has no repetitions at all. -/
theorem sortedDistinct_eq_listing (elements : List Element) :
    sortedDistinct elements = listing elements := by
  have hsorted : (sorted elements).Pairwise fun a b => compare a b ≠ .gt :=
    pairwise_mergeSort_compare elements
  have hantisymm : Std.Antisymm fun a b : Element => compare a b ≠ .gt := by
    refine ⟨fun a b hab hba => ?_⟩
    rw [ne_eq, Ordering.ne_gt_iff_isLE] at hab hba
    exact order_eq_iff.mp (Std.OrientedCmp.isLE_antisymm hab hba)
  have hdedup : sortedDistinct elements = (sorted elements).dedup := hsorted.destutter_eq_dedup
  rw [hdedup]
  refine Increasing.eq_of_mem_iff ?_ (increasing_listing elements) fun e => ?_
  · exact increasing_of_pairwise (hsorted.sublist (List.dedup_sublist _)) (List.nodup_dedup _)
  · rw [List.mem_dedup, mem_listing, sorted, (List.mergeSort_perm _ _).mem_iff]

end Element

end AccessWidening
