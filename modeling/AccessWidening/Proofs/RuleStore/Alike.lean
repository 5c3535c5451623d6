import AccessWidening.Proofs.RuleStore.Reachable

/-!
Stores and their rule sets, as far as bytes and texts go.

A store writes the snapshot that its rule set writes, reads bytes as its rule set does, and loads a
text as its rule set does. Two stores with one rule set cannot be told apart, although their hash
maps may be laid out differently.
-/

namespace AccessWidening

namespace RuleStore

/-- Stores that nothing tells apart: they are equal, and so is all that is made of them. -/
structure Alike (a b : RuleStore) : Prop where
  equal : (a == b) = true
  entries : a.entries = b.entries
  summary : a.summary = b.summary
  snapshot : a.toSnapshot = b.toSnapshot
  fingerprint : a.fingerprint = b.fingerprint

/-- Whether bytes restore a store, up to what nothing tells apart. -/
def RestoredFrom (store : RuleStore) (bytes : Bytes) : Prop :=
  ∃ restored, ofSnapshot bytes = .ok restored ∧ restored.Alike store

variable {store a b : RuleStore} {rules : RuleSet} {bytes : Bytes}

theorem toSnapshot_toRuleSet (h : store.Kept) : store.toSnapshot = store.toRuleSet.toSnapshot := by
  rw [toSnapshot, RuleSet.toSnapshot, RuleSet.payload, classCount_toRuleSet h, entries_toRuleSet h]

theorem fingerprint_toRuleSet (h : store.Kept) :
    store.fingerprint = store.toRuleSet.fingerprint := by
  rw [fingerprint, RuleSet.fingerprint, RuleSet.canonicalText, entries_toRuleSet h]

theorem Kept.alike (ha : a.Kept) (hb : b.Kept) (hrules : a.toRuleSet = b.toRuleSet) :
    a.Alike b where
  equal := (beq_iff ha hb).mpr hrules
  entries := by rw [← entries_toRuleSet ha, hrules, entries_toRuleSet hb]
  summary := by rw [summary_toRuleSet ha, hrules, summary_toRuleSet hb]
  snapshot := by rw [toSnapshot_toRuleSet ha, hrules, toSnapshot_toRuleSet hb]
  fingerprint := by rw [fingerprint_toRuleSet ha, hrules, fingerprint_toRuleSet hb]

/-! ## Reading bytes -/

/-- A store is restored from the bytes that a rule set is restored from. -/
theorem exists_ofSnapshot_eq_ok_iff :
    (∃ restored, ofSnapshot bytes = .ok restored ∧ restored.toRuleSet = rules) ↔
      RuleSet.ofSnapshot bytes = .ok rules := by
  rw [← toRuleSet_ofSnapshot]
  constructor
  · rintro ⟨restored, hrestored, rfl⟩
    rw [hrestored]
    rfl
  · exact map_eq_ok

/-- Restoring a store fails as restoring a rule set does. -/
theorem ofSnapshot_eq_error_iff {fault : SnapshotError} :
    ofSnapshot bytes = .error fault ↔ RuleSet.ofSnapshot bytes = .error fault := by
  rw [← toRuleSet_ofSnapshot]
  cases ofSnapshot bytes with
  | error other => rw [Except.map, Except.error.injEq, Except.error.injEq]
  | ok restored => exact iff_of_false nofun nofun

theorem restoredFrom_iff (h : store.Kept) :
    store.RestoredFrom bytes ↔ RuleSet.ofSnapshot bytes = .ok store.toRuleSet := by
  rw [← exists_ofSnapshot_eq_ok_iff]
  constructor
  · rintro ⟨restored, hrestored, halike⟩
    exact ⟨restored, hrestored, (beq_iff (Reachable.ofSnapshot hrestored).kept h).mp halike.equal⟩
  · rintro ⟨restored, hrestored, hrules⟩
    exact ⟨restored, hrestored, (Reachable.ofSnapshot hrestored).kept.alike h hrules⟩

/-! ## Loading a text -/

/-- A text that a store loads is loaded by its rule set. -/
theorem exists_loaded_of_addText (h : store.Kept) {source text : String} {after : RuleStore}
    {count : Nat} (hloaded : store.addText source text = .ok (after, count)) :
    ∃ loaded, store.toRuleSet.addText source text = .ok loaded ∧
      loaded.rules = after.toRuleSet := by
  have hsame := toRuleSet_addText h source text
  rw [hloaded] at hsame
  obtain ⟨loaded, hrules, hafter⟩ := map_eq_ok hsame.symm
  exact ⟨loaded, hrules, (Prod.mk.inj hafter).1⟩

/-- The texts that make a rule set make a store of it. -/
theorem exists_ofText_of_loaded {source text : String} {loaded : Loaded}
    (hloaded : RuleSet.ofText source text = .ok loaded) :
    ∃ store, ofText source text = .ok (store, loaded.count) ∧ store.Kept ∧
      store.toRuleSet = loaded.rules := by
  have hsame := toRuleSet_addText kept_empty source text
  rw [toRuleSet_empty, ← RuleSet.ofText, hloaded] at hsame
  obtain ⟨⟨store, count⟩, hadded, hafter⟩ := map_eq_ok hsame
  obtain ⟨hrules, rfl⟩ := Prod.mk.inj hafter
  exact ⟨store, hadded, kept_empty.addText hadded, hrules⟩

end RuleStore

end AccessWidening
