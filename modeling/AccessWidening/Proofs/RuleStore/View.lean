import AccessWidening.Proofs.RuleStore.ClassRules
import AccessWidening.RuleStore.Basic

/-!
A store is a finite map from elements to levels, as long as every bucket holds rules for the class
that it is kept under, and at least one. Adding, merging and taking out buckets keep that up, and do
to the map what they do to a rule set.
-/

namespace AccessWidening

namespace RuleStore

/-- What is true of a store whose buckets are kept in order. -/
structure Kept (store : RuleStore) : Prop where
  belongs : ∀ {name : String} {bucket : ClassRules}, store.classes[name]? = some bucket →
    bucket.BelongsTo name
  occupied : ∀ {name : String} {bucket : ClassRules}, store.classes[name]? = some bucket →
    bucket.entries ≠ []

def level? (store : RuleStore) (e : Element) : Option Level :=
  store.classes[e.owner]?.bind fun bucket => bucket.level? e

def toRuleSet (store : RuleStore) : RuleSet := RuleSet.empty.requestAll store.entries

variable {store : RuleStore}

theorem level?_of_bucket {name : String} {bucket : ClassRules}
    (hbucket : store.classes[name]? = some bucket) {e : Element} (howner : e.owner = name) :
    store.level? e = bucket.level? e := by
  rw [level?, howner, hbucket]
  rfl

theorem mem_entries (h : store.Kept) {e : Element} {level : Level} :
    (e, level) ∈ store.entries ↔ store.level? e = some level := by
  simp only [entries, mem_sortEntries, List.mem_flatMap, Prod.exists,
    Std.HashMap.mem_toList_iff_getElem?_eq_some, RuleStore.level?, Option.bind_eq_some_iff]
  constructor
  · rintro ⟨name, bucket, hbucket, hmem⟩
    have hbelongs := h.belongs hbucket
    rw [ClassRules.entries, mem_sortEntries, ClassRules.mem_requests hbelongs] at hmem
    have howner : e.owner = name := ClassRules.owner_of_level? hbelongs hmem
    exact ⟨bucket, howner ▸ hbucket, hmem⟩
  · rintro ⟨bucket, hbucket, hlevel⟩
    refine ⟨e.owner, bucket, hbucket, ?_⟩
    rwa [ClassRules.entries, mem_sortEntries, ClassRules.mem_requests (h.belongs hbucket)]

/-- A bucket names no element twice, and two buckets are about different classes. -/
theorem nodup_collected (h : store.Kept) :
    ((store.classes.toList.flatMap fun entry => entry.2.entries).map (·.1)).Nodup := by
  have hbucket {entry : String × ClassRules} (hentry : entry ∈ store.classes.toList) :
      entry.2.BelongsTo entry.1 :=
    h.belongs (Std.HashMap.mem_toList_iff_getElem?_eq_some.mp hentry)
  rw [List.map_flatMap, List.Nodup, List.pairwise_flatMap]
  constructor
  · intro entry hentry
    exact ((List.mergeSort_perm entry.2.requests _).map _).symm.nodup
      (ClassRules.nodup_requests (hbucket hentry))
  · refine Std.HashMap.distinct_keys_toList.imp_of_mem ?_
    intro a b ha hb hdiffer e hea k hkb hek
    have howner {entry : String × ClassRules} {e : Element} (hentry : entry ∈ store.classes.toList)
        (he : e ∈ entry.2.entries.map (·.1)) : e.owner = entry.1 := by
      obtain ⟨rule, hrule, rfl⟩ := List.mem_map.mp he
      rw [ClassRules.entries, mem_sortEntries, ClassRules.mem_requests (hbucket hentry)] at hrule
      exact ClassRules.owner_of_level? (hbucket hentry) hrule
    have hsame : a.1 = b.1 := (howner ha hea).symm.trans (howner hb (hek ▸ hkb))
    simp [hsame] at hdiffer

/-- The entries of a store stand in strictly increasing order. -/
theorem increasing_entries (h : store.Kept) :
    store.entries.Pairwise fun a b => a.1 < b.1 :=
  increasing_sortEntries (nodup_collected h)

theorem entries_toRuleSet (h : store.Kept) : store.toRuleSet.entries = store.entries :=
  congrArg RuleSet.entries (RuleSet.requestAll_entries ⟨store.entries, increasing_entries h⟩)

theorem level?_toRuleSet (h : store.Kept) (e : Element) :
    store.toRuleSet.level? e = store.level? e := by
  apply Option.ext
  intro level
  rw [RuleSet.level?_eq_some_iff, entries_toRuleSet h, mem_entries h]

/-! ## What a store answers -/

theorem pending_eq (store : RuleStore) : store.pending = store.entries.map (·.1) := by
  rw [entries, map_fst_sortEntries, List.map_flatMap, pending]
  congr 2
  funext entry
  exact entry.2.remaining_eq

theorem pending_toRuleSet (h : store.Kept) : store.pending = store.toRuleSet.elements := by
  rw [pending_eq, RuleSet.elements, entries_toRuleSet h]

theorem increasing_pending (h : store.Kept) : Increasing store.pending := by
  rw [pending_toRuleSet h]
  exact store.toRuleSet.increasing_elements

theorem mem_pending (h : store.Kept) {e : Element} :
    e ∈ store.pending ↔ ∃ level, store.level? e = some level := by
  rw [pending_eq, List.mem_map]
  constructor
  · rintro ⟨⟨k, level⟩, hmem, rfl⟩
    exact ⟨level, (mem_entries h).mp hmem⟩
  · rintro ⟨level, hlevel⟩
    exact ⟨(e, level), (mem_entries h).mpr hlevel, rfl⟩

theorem increasing_classNames (store : RuleStore) : Increasing store.classNames :=
  increasing_mergeSort Std.HashMap.nodup_keys

theorem mem_classes_iff {name : String} : name ∈ store.classes ↔ name ∈ store.classNames := by
  rw [classNames, (List.mergeSort_perm _ _).mem_iff, Std.HashMap.mem_keys]

/-- The classes of a store are the owners of its elements: no bucket is empty. -/
theorem mem_classNames (h : store.Kept) {name : String} :
    name ∈ store.classNames ↔ ∃ e ∈ store.pending, e.owner = name := by
  rw [← mem_classes_iff, Std.HashMap.mem_iff_isSome_getElem?, Option.isSome_iff_exists]
  constructor
  · rintro ⟨bucket, hbucket⟩
    have hbelongs := h.belongs hbucket
    obtain ⟨e, level, hlevel⟩ := (ClassRules.entries_ne_nil_iff hbelongs).mp (h.occupied hbucket)
    have howner := ClassRules.owner_of_level? hbelongs hlevel
    refine ⟨e, (mem_pending h).mpr ⟨level, ?_⟩, howner⟩
    rw [RuleStore.level?, howner, hbucket]
    exact hlevel
  · rintro ⟨e, he, rfl⟩
    obtain ⟨level, hlevel⟩ := (mem_pending h).mp he
    obtain ⟨bucket, hbucket, -⟩ := Option.bind_eq_some_iff.mp hlevel
    exact ⟨bucket, hbucket⟩

theorem classNames_toRuleSet (h : store.Kept) : store.classNames = store.toRuleSet.classNames := by
  refine (increasing_classNames store).eq_of_mem_iff (increasing_listing _) fun name => ?_
  rw [mem_classNames h, RuleSet.classNames, mem_listing, List.mem_map, pending_toRuleSet h]

theorem classCount_eq_length (store : RuleStore) : store.classCount = store.classNames.length := by
  rw [classNames, List.length_mergeSort, Std.HashMap.length_keys, classCount]

theorem classCount_toRuleSet (h : store.Kept) : store.classCount = store.toRuleSet.classCount := by
  rw [classCount_eq_length, classNames_toRuleSet h, RuleSet.classCount]

theorem summary_toRuleSet (h : store.Kept) : store.summary = store.toRuleSet.summary := by
  have hfold (buckets : List (String × ClassRules)) (count : Nat) :
      buckets.foldl (fun count entry => count + entry.2.remaining.length) count =
        count + (buckets.flatMap fun entry => entry.2.remaining).length := by
    induction buckets generalizing count with
    | nil => rfl
    | cons entry rest ih =>
        rw [List.foldl_cons, ih, List.flatMap_cons, List.length_append, Nat.add_assoc]
  have hlength : store.pending.length = store.entries.length := by
    rw [pending_eq, List.length_map]
  have hcount : store.classes.fold (fun count _ bucket => count + bucket.remaining.length) 0 =
      store.toRuleSet.entries.length := by
    rw [Std.HashMap.fold_eq_foldl_toList, hfold, Nat.zero_add, entries_toRuleSet h, ← hlength,
      pending, Element.sorted, List.length_mergeSort]
  unfold summary RuleSet.summary
  rw [hcount, classCount_toRuleSet h]

theorem isEmpty_iff (h : store.Kept) : store.isEmpty = true ↔ ∀ e, store.level? e = none := by
  rw [isEmpty, Std.HashMap.isEmpty_iff_forall_not_mem]
  constructor
  · intro hempty e
    rw [RuleStore.level?, Std.HashMap.getElem?_eq_none (hempty e.owner)]
    rfl
  · intro hnone name hmem
    obtain ⟨e, he, -⟩ := (mem_classNames h).mp (mem_classes_iff.mp hmem)
    obtain ⟨level, hlevel⟩ := (mem_pending h).mp he
    rw [hnone] at hlevel
    cases hlevel

theorem ensureClear_eq (h : store.Kept) : store.ensureClear =
    if store.isEmpty then .ok () else .error ⟨store.pending, increasing_pending h⟩ := by
  have hlisted : StaleRules.ofList store.pending = ⟨store.pending, increasing_pending h⟩ := by
    simp only [StaleRules.ofList, (increasing_pending h).listing_eq]
  rw [ensureClear, hlisted]

end RuleStore

end AccessWidening
