import AccessWidening.Proofs.Outcome
import AccessWidening.Proofs.RuleStore.View

/-!
What the operations on a store do to it as a map. Each keeps the buckets in order, and is the
operation of the same name on rule sets.
-/

namespace AccessWidening

namespace RuleStore

variable {store other : RuleStore}

theorem kept_empty : empty.Kept where
  belongs h := by simp [empty] at h
  occupied h := by simp [empty] at h

theorem toRuleSet_empty : empty.toRuleSet = RuleSet.empty := by
  apply RuleSet.ext_level?
  intro e
  rw [level?_toRuleSet kept_empty, RuleSet.level?_empty, level?, empty, Std.HashMap.getElem?_empty]
  rfl

theorem Kept.insert (h : store.Kept) {name : String} {bucket : ClassRules}
    (hbelongs : bucket.BelongsTo name) (hoccupied : bucket.entries ≠ []) :
    (RuleStore.mk (store.classes.insert name bucket)).Kept := by
  have hcases {n : String} {b : ClassRules} (hb : (store.classes.insert name bucket)[n]? = some b) :
      (n = name ∧ b = bucket) ∨ store.classes[n]? = some b := by
    rw [Std.HashMap.getElem?_insert] at hb
    split at hb
    · next heq =>
      exact .inl ⟨(eq_of_beq heq).symm, (Option.some.inj hb).symm⟩
    · exact .inr hb
  constructor
  · intro n b hb
    obtain ⟨rfl, rfl⟩ | hb := hcases hb
    · exact hbelongs
    · exact h.belongs hb
  · intro n b hb
    obtain ⟨rfl, rfl⟩ | hb := hcases hb
    · exact hoccupied
    · exact h.occupied hb

/-- A store with another bucket under one name differs from before at the elements of that class
only. -/
theorem level?_insert (store : RuleStore) (name : String) (bucket : ClassRules) (e : Element) :
    (RuleStore.mk (store.classes.insert name bucket)).level? e =
      if e.owner = name then bucket.level? e else store.level? e := by
  rw [level?, Std.HashMap.getElem?_insert]
  by_cases howner : e.owner = name
  · rw [if_pos howner, howner, if_pos (beq_self_eq_true name)]
    rfl
  · have hdiffer : (name == e.owner) = false := by simp [Ne.symm howner]
    rw [if_neg howner, hdiffer]
    rfl

/-! ## Adding requests -/

theorem belongsTo_bucketAt (h : store.Kept) (name : String) :
    (store.bucketAt name).BelongsTo name := by
  rw [bucketAt]
  cases hbucket : store.classes[name]? with
  | none => exact ClassRules.belongsTo_empty name
  | some bucket => exact h.belongs hbucket

theorem level?_bucketAt (store : RuleStore) (e : Element) :
    (store.bucketAt e.owner).level? e = store.level? e := by
  rw [bucketAt, level?]
  cases store.classes[e.owner]? with
  | none => exact ClassRules.level?_empty e.owner e
  | some bucket => rfl

theorem level?_add (h : store.Kept) (e : Element) (level : Level) (k : Element) :
    (store.add e level).level? k =
      if k = e then some (Level.joinHeld (store.level? e) level) else store.level? k := by
  rw [add, level?_insert, ClassRules.level?_add (belongsTo_bucketAt h e.owner) rfl,
    level?_bucketAt]
  by_cases howner : k.owner = e.owner
  · rw [if_pos howner, ← howner, level?_bucketAt]
  · have hdiffer : k ≠ e := fun heq => howner (congrArg Element.owner heq)
    rw [if_neg howner, if_neg hdiffer]

theorem Kept.add (h : store.Kept) (e : Element) (level : Level) : (store.add e level).Kept := by
  have hbelongs := (belongsTo_bucketAt h e.owner).add rfl level
  apply h.insert hbelongs
  rw [ClassRules.entries_ne_nil_iff hbelongs]
  have hlevel := ClassRules.level?_add (belongsTo_bucketAt h e.owner) rfl level e
  rw [if_pos rfl] at hlevel
  exact ⟨e, _, hlevel⟩

theorem toRuleSet_add (h : store.Kept) (e : Element) (level : Level) :
    (store.add e level).toRuleSet = store.toRuleSet.request e level := by
  apply RuleSet.ext_level?
  intro k
  rw [level?_toRuleSet (h.add e level), level?_add h, RuleSet.level?_request,
    level?_toRuleSet h, level?_toRuleSet h]

theorem toRuleSet_add_empty (e : Element) (level : Level) :
    (empty.add e level).toRuleSet = RuleSet.empty.request e level := by
  rw [toRuleSet_add kept_empty, toRuleSet_empty]

/-- Adding requests one after the other keeps a store in order, and adds them to the rule set. -/
theorem Kept.addAll (h : store.Kept) (requests : List (Element × Level)) :
    (store.addAll requests).Kept ∧
      (store.addAll requests).toRuleSet = store.toRuleSet.requestAll requests := by
  induction requests generalizing store with
  | nil => exact ⟨h, rfl⟩
  | cons request rest ih =>
      have hstep := ih (h.add request.1 request.2)
      rw [toRuleSet_add h] at hstep
      exact hstep

/-! ## Merging -/

/-- Absorbing a bucket joins its levels, both when it is folded into a bucket that is there and
when it is moved to where none is. -/
theorem level?_absorb (h : store.Kept) {name : String} {bucket : ClassRules}
    (hbelongs : bucket.BelongsTo name) (e : Element) :
    (store.absorb name bucket).level? e =
      Option.merge Level.join (store.level? e) (bucket.level? e) := by
  by_cases howner : e.owner = name
  · cases hbucket : store.classes[name]? with
    | none =>
        -- nothing was held for the class, so what is held now is what the bucket holds
        have hnone : store.level? e = none := by
          rw [level?, howner, hbucket]
          rfl
        have hmoved : store.absorb name bucket = ⟨store.classes.insert name bucket⟩ := by
          simp only [absorb, hbucket]
        rw [hmoved, level?_insert, if_pos howner, hnone]
        cases bucket.level? e <;> rfl
    | some existing =>
        have hexisting := h.belongs hbucket
        have hfolded : store.absorb name bucket =
            ⟨store.classes.insert name (existing.merge bucket)⟩ := by
          simp only [absorb, hbucket]
        obtain ⟨hmerged, hrules⟩ := hexisting.merge hbelongs
        rw [hfolded, level?_insert, if_pos howner, ← ClassRules.level?_toRuleSet hmerged, hrules,
          RuleSet.level?_merge, ClassRules.level?_toRuleSet hexisting,
          ClassRules.level?_toRuleSet hbelongs, level?_of_bucket hbucket howner]
  · have hother : bucket.level? e = none := ClassRules.level?_eq_none hbelongs howner
    have hsame : (store.absorb name bucket).level? e = store.level? e := by
      unfold absorb
      split <;> rw [level?_insert, if_neg howner]
    rw [hsame, hother]
    cases store.level? e <;> rfl

theorem Kept.absorb (h : store.Kept) {name : String} {bucket : ClassRules}
    (hbelongs : bucket.BelongsTo name) (hoccupied : bucket.entries ≠ []) :
    (store.absorb name bucket).Kept := by
  unfold RuleStore.absorb
  split
  · next existing hexisting =>
    obtain ⟨hmerged, hrules⟩ := (h.belongs hexisting).merge hbelongs
    apply h.insert hmerged
    obtain ⟨e, level, hlevel⟩ := (ClassRules.entries_ne_nil_iff hbelongs).mp hoccupied
    have hjoined := RuleSet.level?_merge existing.toRuleSet bucket.toRuleSet e
    rw [← hrules, ClassRules.level?_toRuleSet hmerged, ClassRules.level?_toRuleSet hbelongs,
      hlevel] at hjoined
    rw [ClassRules.entries_ne_nil_iff hmerged]
    cases hheld : existing.toRuleSet.level? e with
    | none => exact ⟨e, level, by rw [hjoined, hheld]; rfl⟩
    | some held => exact ⟨e, held.join level, by rw [hjoined, hheld]; rfl⟩
  · exact h.insert hbelongs hoccupied

theorem toRuleSet_absorb (h : store.Kept) {name : String} {bucket : ClassRules}
    (hbelongs : bucket.BelongsTo name) (hoccupied : bucket.entries ≠ []) :
    (store.absorb name bucket).toRuleSet = store.toRuleSet.requestAll bucket.entries := by
  rw [← ClassRules.entries_toRuleSet hbelongs]
  apply RuleSet.ext_level?
  intro e
  rw [level?_toRuleSet (h.absorb hbelongs hoccupied), level?_absorb h hbelongs]
  have hmerge := RuleSet.level?_merge store.toRuleSet bucket.toRuleSet e
  rw [level?_toRuleSet h, ClassRules.level?_toRuleSet hbelongs] at hmerge
  exact hmerge.symm

/-- Absorbing buckets one after the other keeps a store in order, and adds all their rules. -/
theorem Kept.absorbAll (h : store.Kept) {buckets : List (String × ClassRules)}
    (hbuckets : ∀ entry ∈ buckets, entry.2.BelongsTo entry.1 ∧ entry.2.entries ≠ []) :
    let absorbed := buckets.foldl (fun held entry => held.absorb entry.1 entry.2) store
    absorbed.Kept ∧ absorbed.toRuleSet =
      store.toRuleSet.requestAll (buckets.flatMap fun entry => entry.2.entries) := by
  induction buckets generalizing store with
  | nil => exact ⟨h, rfl⟩
  | cons entry rest ih =>
      obtain ⟨⟨hbelongs, hoccupied⟩, hrest⟩ := List.forall_mem_cons.mp hbuckets
      have hstep := ih (h.absorb hbelongs hoccupied) hrest
      rw [toRuleSet_absorb h hbelongs hoccupied, ← RuleSet.requestAll_append] at hstep
      exact hstep

theorem Kept.merge (h : store.Kept) (hother : other.Kept) :
    (store.merge other).Kept ∧
      (store.merge other).toRuleSet = store.toRuleSet.merge other.toRuleSet := by
  have hbuckets : ∀ entry ∈ other.classes.toList,
      entry.2.BelongsTo entry.1 ∧ entry.2.entries ≠ [] := by
    intro entry hentry
    have hbucket := Std.HashMap.mem_toList_iff_getElem?_eq_some.mp hentry
    exact ⟨hother.belongs hbucket, hother.occupied hbucket⟩
  have hrequests : store.toRuleSet.merge other.toRuleSet =
      store.toRuleSet.requestAll (other.classes.toList.flatMap fun entry => entry.2.entries) := by
    apply RuleSet.requestAll_congr
    intro entry
    rw [entries_toRuleSet hother, entries, mem_sortEntries]
  rw [hrequests]
  exact h.absorbAll hbuckets

/-! ## Taking out a bucket -/

theorem level?_takeBucket (store : RuleStore) (name : String) (e : Element) :
    (store.takeBucket name).2.level? e = if e.owner = name then none else store.level? e := by
  rw [level?, takeBucket, Std.HashMap.getElem?_erase]
  by_cases howner : e.owner = name
  · rw [if_pos howner, if_pos (beq_iff_eq.mpr howner.symm)]
    rfl
  · have hdiffer : (name == e.owner) = false := by simp [Ne.symm howner]
    rw [if_neg howner, hdiffer]
    rfl

theorem Kept.takeBucket (h : store.Kept) (name : String) : (store.takeBucket name).2.Kept := by
  have hbucket {n : String} {bucket : ClassRules}
      (hb : (store.takeBucket name).2.classes[n]? = some bucket) :
      store.classes[n]? = some bucket := by
    rw [RuleStore.takeBucket, Std.HashMap.getElem?_erase] at hb
    split at hb
    · cases hb
    · exact hb
  exact ⟨fun hb => h.belongs (hbucket hb), fun hb => h.occupied (hbucket hb)⟩

theorem toRuleSet_takeBucket (h : store.Kept) (name : String) :
    (store.takeBucket name).2.toRuleSet = store.toRuleSet.withoutOwner name := by
  apply RuleSet.ext_level?
  intro e
  rw [level?_toRuleSet (h.takeBucket name), level?_takeBucket, RuleSet.level?_withoutOwner,
    level?_toRuleSet h]

/-- The bucket of a class holds exactly the rules for the class. -/
theorem toRuleSet_of_bucket (h : store.Kept) {name : String} {bucket : ClassRules}
    (hbucket : store.classes[name]? = some bucket) :
    bucket.toRuleSet = store.toRuleSet.ofOwner name := by
  have hbelongs := h.belongs hbucket
  apply RuleSet.ext_level?
  intro e
  rw [ClassRules.level?_toRuleSet hbelongs, RuleSet.level?_ofOwner, level?_toRuleSet h]
  by_cases howner : e.owner = name
  · rw [if_pos howner, level?_of_bucket hbucket howner]
  · rw [if_neg howner, ClassRules.level?_eq_none hbelongs howner]

/-! ## Loading and restoring -/

theorem addText_of_rules {source text : String} {found : List Rule} (store : RuleStore)
    (hfound : Rule.ofText source text = .ok found) : store.addText source text =
      .ok (store.addAll (found.map fun rule => (rule.element, rule.level)), found.length) := by
  rw [addText, hfound]
  rfl

theorem addText_of_error {source text : String} {error : SourceError} (store : RuleStore)
    (herror : Rule.ofText source text = .error error) :
    store.addText source text = .error error := by
  rw [addText, herror]
  rfl

theorem addText_eq_ok {source text : String} {after : RuleStore} {count : Nat}
    (hloaded : store.addText source text = .ok (after, count)) :
    ∃ found, Rule.ofText source text = .ok found ∧ count = found.length ∧
      after = store.addAll (found.map fun rule => (rule.element, rule.level)) := by
  obtain ⟨found, hfound, hafter⟩ := map_eq_ok hloaded
  obtain ⟨rfl, rfl⟩ := Prod.mk.inj hafter
  exact ⟨found, hfound, rfl, rfl⟩

theorem ofPayload_eq_ok {payload : Payload} (hrestored : ofPayload payload = .ok store) :
    store = empty.addAll payload.entries := by
  unfold ofPayload at hrestored
  dsimp only at hrestored
  split at hrestored
  · cases hrestored
  · split at hrestored
    · cases hrestored
    · exact (Except.ok.inj hrestored).symm

theorem ofSnapshot_eq_ok {bytes : Bytes} (hrestored : ofSnapshot bytes = .ok store) :
    ∃ entries, store = empty.addAll entries := by
  obtain ⟨cut, -, hread⟩ := bind_eq_ok hrestored
  split at hread
  · cases hread
  · exact ⟨_, ofPayload_eq_ok hread⟩

theorem Kept.addText (h : store.Kept) {source text : String} {after : RuleStore} {count : Nat}
    (hloaded : store.addText source text = .ok (after, count)) : after.Kept := by
  obtain ⟨found, -, -, rfl⟩ := addText_eq_ok hloaded
  exact (h.addAll _).1

/-- A text is loaded into a store as it is loaded into the rule set. -/
theorem toRuleSet_addText (h : store.Kept) (source text : String) :
    (store.addText source text).map (fun loaded => (loaded.1.toRuleSet, loaded.2)) =
      (store.toRuleSet.addText source text).map fun loaded => (loaded.rules, loaded.count) := by
  unfold RuleStore.addText RuleSet.addText
  cases Rule.ofText source text with
  | error error => rfl
  | ok found =>
      have hrules := (h.addAll (found.map fun rule => (rule.element, rule.level))).2
      simp only [Except.map, hrules]

theorem toRuleSet_ofPayload (payload : Payload) :
    (ofPayload payload).map toRuleSet = payload.restore := by
  obtain ⟨hkept, hrules⟩ := kept_empty.addAll payload.entries
  rw [toRuleSet_empty] at hrules
  have hclasses : (empty.addAll payload.entries).classCount =
      (RuleSet.empty.requestAll payload.entries).classCount := by
    rw [← hrules, classCount_toRuleSet hkept]
  have hentries : (empty.addAll payload.entries).entries =
      (RuleSet.empty.requestAll payload.entries).entries := by
    rw [← hrules, entries_toRuleSet hkept]
  unfold ofPayload Payload.restore
  simp only [hclasses, hentries]
  split
  · rfl
  · split
    · rfl
    · exact congrArg Except.ok hrules

/-- A store is restored from the snapshots that a rule set is restored from, as the same rules. -/
theorem toRuleSet_ofSnapshot (bytes : Bytes) :
    (ofSnapshot bytes).map toRuleSet = RuleSet.ofSnapshot bytes := by
  unfold ofSnapshot RuleSet.ofSnapshot
  cases Snapshot.payloadOf bytes with
  | error fault => rfl
  | ok cut =>
      cases hread : Payload.read cut with
      | none => simp only [bind, Except.bind, hread]; rfl
      | some content =>
          simp only [bind, Except.bind, hread]
          exact toRuleSet_ofPayload content.1

end RuleStore

end AccessWidening
