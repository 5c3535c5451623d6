import AccessWidening.Proofs.RuleStore.Sorting

/-!
The bucket of a class is a finite map from the class and its members to levels. Adding a request and
folding in another bucket do to it what they do to a rule set.
-/

namespace AccessWidening

namespace ClassRules

/-- What is true of a bucket that is kept under the name of a class: it carries that name, and its
two maps hold elements of that class, each of its own kind. -/
structure BelongsTo (bucket : ClassRules) (name : String) : Prop where
  owner_eq : bucket.owner = name
  fields : ∀ e ∈ bucket.fields, e.kind = .field ∧ e.owner = name
  methods : ∀ e ∈ bucket.methods, e.kind = .method ∧ e.owner = name

def toRuleSet (bucket : ClassRules) : RuleSet := RuleSet.empty.requestAll bucket.requests

theorem map_fst_requests (bucket : ClassRules) :
    bucket.requests.map (·.1) = bucket.access.toList.map (fun _ => .classItself bucket.owner) ++
      bucket.fields.keys ++ bucket.methods.keys := by
  simp [requests, ← Std.HashMap.map_fst_toList_eq_keys]

theorem remaining_eq (bucket : ClassRules) : bucket.remaining = bucket.entries.map (·.1) := by
  rw [remaining, entries, map_fst_sortEntries, map_fst_requests]

section Belonging

variable {bucket : ClassRules} {name : String}

theorem mem_requests (h : bucket.BelongsTo name) {e : Element} {level : Level} :
    (e, level) ∈ bucket.requests ↔ bucket.level? e = some level := by
  have hparts : (e, level) ∈ bucket.requests ↔
      (bucket.access = some level ∧ e = .classItself bucket.owner) ∨
        bucket.fields[e]? = some level ∨ bucket.methods[e]? = some level := by
    simp only [requests, List.mem_append, List.mem_map, Option.mem_toList, Prod.mk.injEq,
      Std.HashMap.mem_toList_iff_getElem?_eq_some, or_assoc]
    constructor
    · rintro (⟨held, hheld, rfl, rfl⟩ | hmember)
      · exact .inl ⟨hheld, rfl⟩
      · exact .inr hmember
    · rintro (⟨hheld, rfl⟩ | hmember)
      · exact .inl ⟨level, hheld, rfl, rfl⟩
      · exact .inr hmember
  have hfield : bucket.fields[e]? = some level → e.kind = .field ∧ e.owner = bucket.owner := by
    intro hheld
    rw [h.owner_eq]
    exact h.fields e (Std.HashMap.mem_iff_isSome_getElem?.mpr (by rw [hheld]; rfl))
  have hmethod : bucket.methods[e]? = some level → e.kind = .method ∧ e.owner = bucket.owner := by
    intro hheld
    rw [h.owner_eq]
    exact h.methods e (Std.HashMap.mem_iff_isSome_getElem?.mpr (by rw [hheld]; rfl))
  rw [hparts]
  cases e with
  | classItself n =>
      simp only [level?, Element.kind, Element.owner, Element.classItself.injEq] at hfield hmethod ⊢
      grind
  | field owner n descriptor =>
      simp only [level?, Element.kind, Element.owner] at hfield hmethod ⊢
      grind
  | method owner n descriptor =>
      simp only [level?, Element.kind, Element.owner] at hfield hmethod ⊢
      grind

theorem nodup_requests (h : bucket.BelongsTo name) : (bucket.requests.map (·.1)).Nodup := by
  rw [map_fst_requests, List.append_assoc, List.nodup_append, List.nodup_append]
  refine ⟨?_, ⟨Std.HashMap.nodup_keys, Std.HashMap.nodup_keys, ?_⟩, ?_⟩
  · cases bucket.access <;> simp
  · rintro f hf m hm rfl
    have hfield := (h.fields f (Std.HashMap.mem_keys.mp hf)).1
    have hmethod := (h.methods f (Std.HashMap.mem_keys.mp hm)).1
    rw [hfield] at hmethod
    cases hmethod
  · rintro c hc e he rfl
    have hclass : c.kind = .classItself := by
      obtain ⟨_, _, rfl⟩ := List.mem_map.mp hc
      rfl
    rcases List.mem_append.mp he with hf | hm
    · have hfield := (h.fields c (Std.HashMap.mem_keys.mp hf)).1
      rw [hclass] at hfield
      cases hfield
    · have hmethod := (h.methods c (Std.HashMap.mem_keys.mp hm)).1
      rw [hclass] at hmethod
      cases hmethod

theorem entries_toRuleSet (h : bucket.BelongsTo name) : bucket.toRuleSet.entries = bucket.entries :=
  RuleSet.entries_requestAll_empty (nodup_requests h)

theorem level?_toRuleSet (h : bucket.BelongsTo name) (e : Element) :
    bucket.toRuleSet.level? e = bucket.level? e := by
  apply Option.ext
  intro level
  rw [RuleSet.level?_eq_some_iff, entries_toRuleSet h, entries, mem_sortEntries, mem_requests h]

/-- A bucket holds levels for the elements of its own class only. -/
theorem level?_eq_none (h : bucket.BelongsTo name) {e : Element} (hother : e.owner ≠ name) :
    bucket.level? e = none := by
  have hdiffer : e.owner ≠ bucket.owner := by rwa [h.owner_eq]
  simp only [level?, if_neg hdiffer]

theorem owner_of_level? (h : bucket.BelongsTo name) {e : Element} {level : Level}
    (hheld : bucket.level? e = some level) : e.owner = name := by
  refine Decidable.byContradiction fun hother => ?_
  rw [level?_eq_none h hother] at hheld
  cases hheld

theorem entries_ne_nil_iff (h : bucket.BelongsTo name) :
    bucket.entries ≠ [] ↔ ∃ e level, bucket.level? e = some level := by
  simp only [ne_eq, List.eq_nil_iff_forall_not_mem, entries, mem_sortEntries, Prod.forall,
    mem_requests h, Classical.not_forall, Classical.not_not]

theorem belongsTo_empty (name : String) : (empty name).BelongsTo name where
  owner_eq := rfl
  fields e he := by simp [empty] at he
  methods e he := by simp [empty] at he

theorem level?_empty (name : String) (e : Element) : (empty name).level? e = none := by
  unfold level?
  split
  · cases e <;> simp [empty]
  · rfl

theorem BelongsTo.add (h : bucket.BelongsTo name) {e : Element} (he : e.owner = name)
    (level : Level) : (bucket.add e level).BelongsTo name := by
  cases e with
  | classItself n => exact ⟨h.owner_eq, h.fields, h.methods⟩
  | field owner n descriptor =>
      refine ⟨h.owner_eq, ?_, h.methods⟩
      intro k hk
      rcases Std.HashMap.mem_insert.mp hk with heq | hk
      · obtain rfl := eq_of_beq heq
        exact ⟨rfl, he⟩
      · exact h.fields k hk
  | method owner n descriptor =>
      refine ⟨h.owner_eq, h.fields, ?_⟩
      intro k hk
      rcases Std.HashMap.mem_insert.mp hk with heq | hk
      · obtain rfl := eq_of_beq heq
        exact ⟨rfl, he⟩
      · exact h.methods k hk

theorem level?_add (h : bucket.BelongsTo name) {e : Element} (he : e.owner = name)
    (level : Level) (k : Element) :
    (bucket.add e level).level? k =
      if k = e then some (Level.joinHeld (bucket.level? e) level) else bucket.level? k := by
  have howner := h.owner_eq
  cases e <;> cases k <;>
    simp only [level?, add, addAccess, Element.owner, Std.HashMap.getElem?_insert] at he ⊢ <;>
    grind

theorem toRuleSet_add (h : bucket.BelongsTo name) {e : Element} (he : e.owner = name)
    (level : Level) : (bucket.add e level).toRuleSet = bucket.toRuleSet.request e level := by
  apply RuleSet.ext_level?
  intro k
  rw [level?_toRuleSet (h.add he level), level?_add h he, RuleSet.level?_request,
    level?_toRuleSet h, level?_toRuleSet h]

theorem BelongsTo.addAll (h : bucket.BelongsTo name) {entries : List (Element × Level)}
    (howner : ∀ entry ∈ entries, entry.1.owner = name) :
    (bucket.addAll entries).BelongsTo name ∧
      (bucket.addAll entries).toRuleSet = bucket.toRuleSet.requestAll entries := by
  induction entries generalizing bucket with
  | nil => exact ⟨h, rfl⟩
  | cons entry rest ih =>
      obtain ⟨hentry, hrest⟩ := List.forall_mem_cons.mp howner
      have hstep := ih (h.add hentry entry.2) hrest
      rw [toRuleSet_add h hentry] at hstep
      exact hstep

end Belonging

/-- Folding in a bucket is adding all its rules. -/
theorem merge_eq_addAll {bucket other : ClassRules} : bucket.merge other =
    bucket.addAll other.requests := by
  unfold merge requests addAll
  cases other.access with
  | none => simp
  | some level => simp [add]

theorem BelongsTo.merge {bucket other : ClassRules} {name : String} (h : bucket.BelongsTo name)
    (hother : other.BelongsTo name) :
    (bucket.merge other).BelongsTo name ∧
      (bucket.merge other).toRuleSet = bucket.toRuleSet.merge other.toRuleSet := by
  have howner : ∀ entry ∈ other.requests, entry.1.owner = name := fun entry hentry =>
    owner_of_level? hother ((mem_requests hother).mp hentry)
  have hrequests : bucket.toRuleSet.merge other.toRuleSet =
      bucket.toRuleSet.requestAll other.requests := by
    apply RuleSet.requestAll_congr
    intro entry
    rw [entries_toRuleSet hother, entries, mem_sortEntries]
  rw [merge_eq_addAll, hrequests]
  exact h.addAll howner

end ClassRules

end AccessWidening
