import AccessWidening.Proofs.RuleSet.Legible
import AccessWidening.Proofs.RuleStore.Loading

/-!
Which stores a fingerprint tells apart, as far as the hash does.

What is hashed are the canonical lines of the entries. They are the lines of one store only among
the stores whose names keep clear of the separators, and all stores that come from rule text are
such. Any name can be requested, though, and a name with a line feed is enough to make two stores
that hash the same bytes.
-/

namespace AccessWidening

theorem Bytes.ofString_injective : Function.Injective Bytes.ofString := by
  intro s t h
  have hread := Bytes.toString?_ofString s
  rw [h, Bytes.toString?_ofString] at hread
  exact (Option.some.inj hread).symm

namespace RuleStore

/-- The bytes that the fingerprint of a store is the hash of. -/
def hashed (store : RuleStore) : Bytes := Bytes.ofString store.canonicalText

variable {store : RuleStore} {e : Element} {level : Level}

theorem hashed_toRuleSet (h : store.Kept) :
    store.hashed = Bytes.ofString store.toRuleSet.canonicalText := by
  rw [hashed, canonicalText_toRuleSet h]

/-- A fingerprint is the hash of the canonical lines. Where no name breaks a line, these show the
levels and the written forms of the entries and nothing else, so stores hash the same bytes exactly
if they agree in these. Legible stores hash the same bytes exactly if they are equal, and a store of
rules that come from rule text is legible. -/
theorem hashed_bytes_determine_legible_store (a b : RuleStore) (ha : a.Reachable)
    (hb : b.Reachable) :
    a.fingerprint = Blake3.hash a.hashed ∧
    ((∀ e ∈ a.pending, '\n' ∉ e.text.toList) → (∀ e ∈ b.pending, '\n' ∉ e.text.toList) →
      (a.hashed = b.hashed ↔ a.entries.map shown = b.entries.map shown)) ∧
    ((∀ e ∈ a.pending, e.Legible) → (∀ e ∈ b.pending, e.Legible) →
      (a.hashed = b.hashed ↔ (a == b) = true)) ∧
    (a.toRuleSet.FromText → ∀ e ∈ a.pending, e.Legible) := by
  rw [pending_toRuleSet ha.kept, pending_toRuleSet hb.kept, hashed_toRuleSet ha.kept,
    hashed_toRuleSet hb.kept, Bytes.ofString_injective.eq_iff]
  refine ⟨?_, ?_, ?_, RuleSet.FromText.legible⟩
  · rw [← hashed_toRuleSet ha.kept]
    rfl
  · intro hunbroken hunbroken'
    rw [RuleSet.canonicalText_eq_iff_of_unbroken hunbroken hunbroken', entries_toRuleSet ha.kept,
      entries_toRuleSet hb.kept]
  · intro hlegible hlegible'
    rw [RuleSet.canonicalText_eq_iff hlegible hlegible', beq_iff ha.kept hb.kept]

/-- A field and a method of one name, requested without rule text. -/
theorem hashed_ne_of_field_and_method :
    let a := empty.add (.field "a/B" "x" (some "I")) ⟨.pub, .unstated⟩
    let b := empty.add (.method "a/B" "x" "()V") ⟨.pub, .unstated⟩
    a.Reachable ∧ b.Reachable ∧ (∀ e ∈ a.pending, e.Legible) ∧ (∀ e ∈ b.pending, e.Legible) ∧
      a.hashed ≠ b.hashed := by
  intro a b
  have ha : a.Reachable := .add .empty _ _
  have hb : b.Reachable := .add .empty _ _
  have hlegible : ∀ e ∈ a.pending, e.Legible := by
    rw [pending_toRuleSet ha.kept, toRuleSet_add_empty]
    rintro e he
    obtain rfl := List.mem_singleton.mp he
    constructor <;> simp [Element.owner, Element.memberName, Element.descriptor?, Element.kind]
  have hlegible' : ∀ e ∈ b.pending, e.Legible := by
    rw [pending_toRuleSet hb.kept, toRuleSet_add_empty]
    rintro e he
    obtain rfl := List.mem_singleton.mp he
    constructor <;> simp [Element.owner, Element.memberName, Element.descriptor?, Element.kind]
  refine ⟨ha, hb, hlegible, hlegible', ?_⟩
  rw [ne_eq, (hashed_bytes_determine_legible_store a b ha hb).2.2.1 hlegible hlegible',
    beq_iff ha.kept hb.kept, toRuleSet_add_empty, toRuleSet_add_empty]
  decide

/-- Two pairs of different stores that hash the same bytes: a class whose name holds a line feed and
the two classes that its line reads as, and a field and a method that are written alike. -/
theorem hashed_eq_of_different_stores :
    let broken := empty.add (.classItself "A\npublic B") ⟨.pub, .unstated⟩
    let lines := (empty.add (.classItself "A") ⟨.pub, .unstated⟩).add (.classItself "B")
      ⟨.pub, .unstated⟩
    let field := empty.add (.field "a/A" "x" (some "I")) ⟨.pub, .unstated⟩
    let method := empty.add (.method "a/A" "x" "I") ⟨.pub, .unstated⟩
    (broken.Reachable ∧ lines.Reachable ∧ (broken == lines) = false ∧
      broken.hashed = lines.hashed ∧ broken.fingerprint = lines.fingerprint) ∧
    (field.Reachable ∧ method.Reachable ∧ (field == method) = false ∧
      field.hashed = method.hashed ∧ field.fingerprint = method.fingerprint) := by
  intro broken lines field method
  constructor
  · have hbroken : broken.Reachable := .add .empty _ _
    have hlines : lines.Reachable := .add (.add .empty _ _) _ _
    have hrules : lines.toRuleSet =
        (RuleSet.empty.request (.classItself "A") ⟨.pub, .unstated⟩).request
          (.classItself "B") ⟨.pub, .unstated⟩ := by
      rw [toRuleSet_add (kept_empty.add _ _), toRuleSet_add_empty]
    have hhashed : broken.hashed = lines.hashed := by
      rw [hashed_toRuleSet hbroken.kept, hashed_toRuleSet hlines.kept, toRuleSet_add_empty, hrules]
      rfl
    refine ⟨hbroken, hlines, ?_, hhashed, congrArg Blake3.hash hhashed⟩
    rw [Bool.eq_false_iff, ne_eq, beq_iff hbroken.kept hlines.kept, toRuleSet_add_empty, hrules]
    decide
  · have hfield : field.Reachable := .add .empty _ _
    have hmethod : method.Reachable := .add .empty _ _
    have hhashed : field.hashed = method.hashed := by
      rw [hashed_toRuleSet hfield.kept, hashed_toRuleSet hmethod.kept, toRuleSet_add_empty,
        toRuleSet_add_empty]
      rfl
    refine ⟨hfield, hmethod, ?_, hhashed, congrArg Blake3.hash hhashed⟩
    rw [Bool.eq_false_iff, ne_eq, beq_iff hfield.kept hmethod.kept, toRuleSet_add_empty,
      toRuleSet_add_empty]
    decide

end RuleStore

end AccessWidening
