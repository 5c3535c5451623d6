import AccessWidening.Proofs.RuleStore.Equality
import AccessWidening.Proofs.RuleStore.Operations

/-!
Every store that can be built behaves as one finite map from elements to levels.

The stores that can be built are those that the operations reach. Each of them is kept in order, so
what it answers can be read off its map, and each operation on it is an operation on the map.
-/

namespace AccessWidening

namespace RuleStore

/-- The stores that are made from nothing, from rule text or from a snapshot, and by adding, merging
and taking out buckets from there. -/
inductive Reachable : RuleStore → Prop where
  | empty : Reachable empty
  | ofText {source text : String} {store : RuleStore} {count : Nat}
      (loaded : ofText source text = .ok (store, count)) : Reachable store
  | ofSnapshot {bytes : Bytes} {store : RuleStore} (restored : ofSnapshot bytes = .ok store) :
      Reachable store
  | add {store : RuleStore} (before : Reachable store) (e : Element) (level : Level) :
      Reachable (store.add e level)
  | addText {store after : RuleStore} (before : Reachable store) {source text : String}
      {count : Nat} (loaded : store.addText source text = .ok (after, count)) : Reachable after
  | addLine {store after : RuleStore} (before : Reachable store) {line : String} {count : Nat}
      (loaded : store.addLine line = .ok (after, count)) : Reachable after
  | merge {store other : RuleStore} (before : Reachable store) (merged : Reachable other) :
      Reachable (store.merge other)
  | takeBucket {store : RuleStore} (before : Reachable store) (name : String) :
      Reachable (store.takeBucket name).2

variable {store other : RuleStore}

theorem Reachable.kept (h : store.Reachable) : store.Kept := by
  induction h with
  | empty => exact kept_empty
  | ofText loaded => exact kept_empty.addText loaded
  | ofSnapshot restored =>
      obtain ⟨entries, rfl⟩ := ofSnapshot_eq_ok restored
      exact (kept_empty.addAll entries).1
  | add _ e level ih => exact ih.add e level
  | addText _ loaded ih => exact ih.addText loaded
  | addLine _ loaded ih => exact ih.addText loaded
  | merge _ _ ih ihother => exact (ih.merge ihother).1
  | takeBucket _ name ih => exact ih.takeBucket name

/-- What a store holds and answers when it stands for a map. -/
structure Represents (store : RuleStore) (rules : RuleSet) : Prop where
  belongs : ∀ {name : String} {bucket : ClassRules}, store.classes[name]? = some bucket →
    bucket.BelongsTo name
  occupied : ∀ {name : String} {bucket : ClassRules}, store.classes[name]? = some bucket →
    bucket.entries ≠ []
  entries_increasing : store.entries.Pairwise fun a b => a.1 < b.1
  mem_entries : ∀ e level, (e, level) ∈ store.entries ↔ rules.level? e = some level
  pending : store.pending = store.entries.map (·.1)
  classNames_increasing : Increasing store.classNames
  mem_classNames : ∀ name, name ∈ store.classNames ↔ ∃ e ∈ store.pending, e.owner = name
  classCount : store.classCount = store.classNames.length
  isEmpty : store.isEmpty = true ↔ ∀ e, rules.level? e = none
  ensureClear_ok : store.ensureClear = .ok () ↔ store.isEmpty = true
  ensureClear_error : store.isEmpty = false →
    ∃ stale, store.ensureClear = .error stale ∧ stale.unmatched = store.pending

theorem Kept.represents (h : store.Kept) : store.Represents store.toRuleSet where
  belongs := h.belongs
  occupied := h.occupied
  entries_increasing := increasing_entries h
  mem_entries e level := by rw [level?_toRuleSet h, RuleStore.mem_entries h]
  pending := pending_eq store
  classNames_increasing := increasing_classNames store
  mem_classNames _ := RuleStore.mem_classNames h
  classCount := classCount_eq_length store
  isEmpty := by
    simp only [level?_toRuleSet h]
    exact isEmpty_iff h
  ensureClear_ok := by
    rw [ensureClear_eq h]
    cases store.isEmpty <;> simp
  ensureClear_error hnotempty := by
    rw [ensureClear_eq h, hnotempty]
    exact ⟨_, rfl, rfl⟩

/-- What the operations on a store do to its map. -/
structure ActsOnMap (store : RuleStore) : Prop where
  /-- A request joins its level at its element. -/
  add : ∀ e level k, (store.add e level).toRuleSet.level? k =
    if k = e then some (Level.joinHeld (store.toRuleSet.level? e) level)
    else store.toRuleSet.level? k
  /-- A text joins the levels of all its rules, each at its element. -/
  addText : ∀ {source text found}, Rule.ofText source text = .ok found →
    ∃ after, store.addText source text = .ok (after, found.length) ∧
      ∀ k, after.toRuleSet.level? k = Option.merge Level.join (store.toRuleSet.level? k)
        (Level.joinAll (RuleSet.levelsFor k (found.map fun rule => (rule.element, rule.level))))
  /-- A text with a bad line adds nothing. -/
  addText_error : ∀ {source text error}, Rule.ofText source text = .error error →
    store.addText source text = .error error
  /-- A merge joins the maps element by element. -/
  merge : ∀ {other : RuleStore}, other.Reachable → ∀ k, (store.merge other).toRuleSet.level? k =
    Option.merge Level.join (store.toRuleSet.level? k) (other.toRuleSet.level? k)
  /-- Without a rule for a class there is no bucket to take out. -/
  take_none : ∀ name, (store.takeBucket name).1 = none ↔
    ∀ e, e.owner = name → store.toRuleSet.level? e = none
  /-- A bucket that is taken out has the rules for its class. -/
  take_some : ∀ {name bucket}, (store.takeBucket name).1 = some bucket →
    bucket.entries = store.entries.filter fun entry => entry.1.owner = name
  /-- The other rules stay. -/
  take_rest : ∀ name k, (store.takeBucket name).2.toRuleSet.level? k =
    if k.owner = name then none else store.toRuleSet.level? k

theorem takeBucket_eq_none_iff (h : store.Kept) {name : String} :
    (store.takeBucket name).1 = none ↔ ∀ e, e.owner = name → store.level? e = none := by
  change store.classes[name]? = none ↔ _
  constructor
  · rintro hnone e rfl
    rw [level?, hnone]
    rfl
  · intro hlevels
    cases hbucket : store.classes[name]? with
    | none => rfl
    | some bucket =>
        have hbelongs := h.belongs hbucket
        obtain ⟨e, level, hlevel⟩ :=
          (ClassRules.entries_ne_nil_iff hbelongs).mp (h.occupied hbucket)
        have howner := ClassRules.owner_of_level? hbelongs hlevel
        rw [← level?_of_bucket hbucket howner, hlevels e howner] at hlevel
        cases hlevel

theorem entries_of_bucket (h : store.Kept) {name : String} {bucket : ClassRules}
    (hbucket : store.classes[name]? = some bucket) :
    bucket.entries = store.entries.filter fun entry => entry.1.owner = name := by
  rw [← ClassRules.entries_toRuleSet (h.belongs hbucket), toRuleSet_of_bucket h hbucket,
    ← entries_toRuleSet h]
  rfl

theorem Kept.actsOnMap (h : store.Kept) : store.ActsOnMap where
  add e level k := by rw [toRuleSet_add h, RuleSet.level?_request]
  addText {source text found} hfound := by
    refine ⟨_, addText_of_rules store hfound, ?_⟩
    intro k
    rw [(h.addAll _).2, RuleSet.level?_requestAll]
  addText_error herror := addText_of_error store herror
  merge hother k := by rw [(h.merge hother.kept).2, RuleSet.level?_merge]
  take_none name := by
    simp only [level?_toRuleSet h]
    exact takeBucket_eq_none_iff h
  take_some hbucket := entries_of_bucket h hbucket
  take_rest name k := by rw [toRuleSet_takeBucket h, RuleSet.level?_withoutOwner]

/-- Every store that can be built stands for a finite map: its buckets are in order and its answers
are those of the map, its operations act on the map, and it is equal to another such store exactly
when their maps are equal. -/
theorem behaves_as_finite_map (h : store.Reachable) :
    store.Represents store.toRuleSet ∧ store.ActsOnMap ∧
      ∀ other : RuleStore, other.Reachable →
        ((store == other) = true ↔ ∀ e, store.toRuleSet.level? e = other.toRuleSet.level? e) := by
  refine ⟨h.kept.represents, h.kept.actsOnMap, ?_⟩
  intro other hother
  rw [beq_iff h.kept hother.kept]
  constructor
  · intro hsame e
    rw [hsame]
  · exact RuleSet.ext_level?

/-- Two rules for one class, each loaded into a store of its own: the merged store holds the join of
their levels. -/
theorem level?_merge_of_two_requests :
    let store := empty.add (.classItself "a/B") ⟨.prot, .dropFinal⟩
    let other := empty.add (.classItself "a/B") ⟨.pub, .unstated⟩
    store.Reachable ∧ other.Reachable ∧
      (store.merge other).toRuleSet.level? (.classItself "a/B") = some ⟨.pub, .dropFinal⟩ := by
  intro store other
  have hstore : store.Reachable := .add .empty _ _
  have hother : other.Reachable := .add .empty _ _
  have hnone : empty.toRuleSet.level? (.classItself "a/B") = none := by
    rw [toRuleSet_empty, RuleSet.level?_empty]
  obtain ⟨-, hempty, -⟩ := behaves_as_finite_map .empty
  obtain ⟨-, hmap, -⟩ := behaves_as_finite_map hstore
  refine ⟨hstore, hother, ?_⟩
  rw [hmap.merge hother, hempty.add, hempty.add, hnone]
  decide

end RuleStore

end AccessWidening
