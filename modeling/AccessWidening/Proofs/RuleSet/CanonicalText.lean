import AccessWidening.Proofs.Rule.CanonicalLine
import AccessWidening.Proofs.RuleStore.Alike
import AccessWidening.Proofs.Snapshot.RoundTrip
import AccessWidening.RuleSet.Bucket
import AccessWidening.RuleSet.Load

/-!
The canonical text of a set that was made from rule text is a rule text of that set. Elements that
were not read from a rule line can have names that no rule line can state, so it matters where a set
comes from.
-/

namespace AccessWidening

open Grammar

/-- Whether a rule line can name an element. -/
def Element.Writable (e : Element) : Prop := ∃ target : Target, target.element = e

/-- Lines of writable elements are read back as what they were written from. -/
theorem Rule.ofLines_entryLines (source : String) {entries : List (Element × Level)}
    (hwritable : ∀ entry ∈ entries, entry.1.Writable) (number : Nat) :
    ∃ found, Rule.ofLines source number
        (textLines (String.join (entries.map entryLine)).toList) = .ok found ∧
      found.map (fun rule => (rule.element, rule.level)) = entries := by
  -- the number of the first line does not matter for what is read
  induction entries generalizing number with
  | nil => exact ⟨[], rfl, rfl⟩
  | cons entry entries ih =>
      obtain ⟨e, level⟩ := entry
      obtain ⟨⟨target, rfl⟩, hrest⟩ := List.forall_mem_cons.mp hwritable
      obtain ⟨found, hfound, hentries⟩ := ih hrest (number + 1)
      have htrimmed := (Line.trimmed_canonical level target).trimBlank_eq
      have hread : Syntax.readRule (Line.canonical level target).text =
          .ok (level, target.canonical.element) := readRule_text _
      rw [textLines_entryLine_cons, Rule.ofLines]
      simp only [htrimmed, Line.not_ignored, hread, hfound, target.element_canonical]
      exact ⟨_, rfl, by rw [List.map_cons, hentries]⟩

namespace RuleSet

/-- The sets that are made from rule text, by loading it, merging, taking out buckets, and restoring
snapshots of such sets. -/
inductive FromText : RuleSet → Prop where
  | ofText {source text : String} {loaded : Loaded} (h : ofText source text = .ok loaded) :
      FromText loaded.rules
  | addText {rules : RuleSet} (before : FromText rules) {source text : String} {loaded : Loaded}
      (h : rules.addText source text = .ok loaded) : FromText loaded.rules
  | addLine {rules : RuleSet} (before : FromText rules) {line : String} {loaded : Loaded}
      (h : rules.addLine line = .ok loaded) : FromText loaded.rules
  | merge {rules other : RuleSet} (before : FromText rules) (merged : FromText other) :
      FromText (rules.merge other)
  | takeBucket {rules : RuleSet} (before : FromText rules) (owner : String) :
      FromText (rules.takeBucket owner).2
  | ofSnapshot {rules restored : RuleSet} (before : FromText rules)
      (h : ofSnapshot rules.toSnapshot = .ok restored) : FromText restored

variable {rules other : RuleSet}

theorem mem_elements_requestAll {requests : List (Element × Level)} {e : Element}
    (he : e ∈ (rules.requestAll requests).elements) :
    e ∈ rules.elements ∨ ∃ request ∈ requests, request.1 = e := by
  induction requests generalizing rules with
  | nil => exact .inl he
  | cons request rest ih =>
      rcases ih he with hbefore | ⟨later, hlater, rfl⟩
      · obtain ⟨entry, hentry, rfl⟩ := List.mem_map.mp hbefore
        rcases mem_joinEntry hentry with heq | hmem
        · exact .inr ⟨request, List.mem_cons_self, heq.symm⟩
        · exact .inl (List.mem_map_of_mem hmem)
      · exact .inr ⟨later, List.mem_cons_of_mem _ hlater, rfl⟩

theorem writable_of_addText (hwritable : ∀ e ∈ rules.elements, e.Writable) {source text : String}
    {loaded : Loaded} (hloaded : rules.addText source text = .ok loaded) :
    ∀ e ∈ loaded.rules.elements, e.Writable := by
  obtain ⟨found, hfound, rfl⟩ := map_eq_ok hloaded
  intro e he
  rcases mem_elements_requestAll he with hbefore | ⟨request, hrequest, rfl⟩
  · exact hwritable e hbefore
  · obtain ⟨rule, hrule, rfl⟩ := List.mem_map.mp hrequest
    exact exists_target_of_ofLines hfound rule hrule

/-- A snapshot that is restored was taken of the set that comes back. -/
theorem eq_of_ofSnapshot_toSnapshot {restored : RuleSet}
    (h : ofSnapshot rules.toSnapshot = .ok restored) : restored = rules := by
  by_cases hsize : rules.payload.write.length < 0x100000000
  · rw [ofSnapshot_toSnapshot hsize] at h
    exact (Except.ok.inj h).symm
  · obtain ⟨fault, hfault⟩ := ofSnapshot_toSnapshot_of_large (Nat.le_of_not_lt hsize)
    rw [hfault] at h
    cases h

theorem FromText.writable (h : rules.FromText) : ∀ e ∈ rules.elements, e.Writable := by
  induction h with
  | ofText hloaded =>
      refine writable_of_addText ?_ hloaded
      intro e he
      cases he
  | addText _ hloaded ih => exact writable_of_addText ih hloaded
  | addLine _ hloaded ih => exact writable_of_addText ih hloaded
  | merge _ _ ih ihother =>
      intro e he
      rcases mem_elements_requestAll he with hbefore | ⟨request, hrequest, rfl⟩
      · exact ih e hbefore
      · exact ihother _ (List.mem_map_of_mem hrequest)
  | takeBucket _ owner ih =>
      intro e he
      exact ih e (mem_elements_filter.mp he).1
  | ofSnapshot _ hrestored ih => rwa [eq_of_ofSnapshot_toSnapshot hrestored]

theorem ofText_canonicalText (hwritable : ∀ e ∈ rules.elements, e.Writable) (source : String) :
    ofText source rules.canonicalText = .ok ⟨rules, source, rules.entries.length⟩ := by
  obtain ⟨found, hfound, hentries⟩ := Rule.ofLines_entryLines source
    (fun entry hentry => hwritable entry.1 (List.mem_map_of_mem hentry)) 1
  have hread : Rule.ofText source rules.canonicalText = .ok found := hfound
  have hcount : found.length = rules.entries.length := by
    rw [← hentries, List.length_map]
  simp only [ofText, addText, hread, Except.map, hentries, hcount, requestAll_entries]

end RuleSet

/-! ## Stores -/

namespace RuleStore

/-- The stores that are made from rule text, by loading it, merging, taking out buckets, and
restoring snapshots of such stores. -/
inductive FromText : RuleStore → Prop where
  | ofText {source text : String} {store : RuleStore} {count : Nat}
      (h : ofText source text = .ok (store, count)) : FromText store
  | addText {store after : RuleStore} (before : FromText store) {source text : String}
      {count : Nat} (h : store.addText source text = .ok (after, count)) : FromText after
  | addLine {store after : RuleStore} (before : FromText store) {line : String} {count : Nat}
      (h : store.addLine line = .ok (after, count)) : FromText after
  | merge {store other : RuleStore} (before : FromText store) (merged : FromText other) :
      FromText (store.merge other)
  | takeBucket {store : RuleStore} (before : FromText store) (name : String) :
      FromText (store.takeBucket name).2
  | ofSnapshot {store restored : RuleStore} (before : FromText store)
      (h : ofSnapshot store.toSnapshot = .ok restored) : FromText restored

def canonicalText (store : RuleStore) : String := String.join (store.entries.map entryLine)

variable {store : RuleStore}

theorem canonicalText_toRuleSet (h : store.Kept) :
    store.canonicalText = store.toRuleSet.canonicalText := by
  rw [canonicalText, RuleSet.canonicalText, entries_toRuleSet h]

theorem FromText.reachable (h : store.FromText) : store.Reachable := by
  induction h with
  | ofText hloaded => exact .ofText hloaded
  | addText _ hloaded ih => exact .addText ih hloaded
  | addLine _ hloaded ih => exact .addLine ih hloaded
  | merge _ _ ih ihother => exact .merge ih ihother
  | takeBucket _ name ih => exact .takeBucket ih name
  | ofSnapshot _ hrestored _ => exact .ofSnapshot hrestored

/-- The rules of a store that was made from rule text are a set that was made from rule text. -/
theorem FromText.toRuleSet (h : store.FromText) : store.toRuleSet.FromText := by
  induction h with
  | ofText hloaded =>
      obtain ⟨loaded, hrules, hafter⟩ := exists_loaded_of_addText kept_empty hloaded
      rw [toRuleSet_empty] at hrules
      exact hafter ▸ .ofText hrules
  | addText before hloaded ih =>
      obtain ⟨loaded, hrules, hafter⟩ := exists_loaded_of_addText before.reachable.kept hloaded
      exact hafter ▸ .addText ih hrules
  | addLine before hloaded ih =>
      obtain ⟨loaded, hrules, hafter⟩ := exists_loaded_of_addText before.reachable.kept hloaded
      exact hafter ▸ .addLine ih hrules
  | merge before merged ih ihother =>
      rw [(before.reachable.kept.merge merged.reachable.kept).2]
      exact .merge ih ihother
  | takeBucket before name ih =>
      rw [toRuleSet_takeBucket before.reachable.kept]
      exact .takeBucket ih name
  | ofSnapshot before hrestored ih =>
      have hrules := exists_ofSnapshot_eq_ok_iff.mp ⟨_, hrestored, rfl⟩
      rw [toSnapshot_toRuleSet before.reachable.kept] at hrules
      exact .ofSnapshot ih hrules

theorem exists_ofText_canonicalText (h : store.FromText) (source : String) :
    ∃ loaded, ofText source store.canonicalText = .ok (loaded, store.entries.length) ∧
      loaded.Alike store := by
  have hkept := h.reachable.kept
  obtain ⟨loaded, hadded, hloaded, hrules⟩ := exists_ofText_of_loaded
    (RuleSet.ofText_canonicalText h.toRuleSet.writable source)
  rw [← canonicalText_toRuleSet hkept, entries_toRuleSet hkept] at hadded
  exact ⟨loaded, hadded, hloaded.alike hkept hrules⟩

end RuleStore

namespace RuleSet

/-- The canonical text of a set that was made from rule text, which is what the fingerprint is the
hash of, is a lossless rule file: under any name it loads, has as many rules as the set has entries,
and makes the set. So sets with the same canonical text are the same. The same holds of stores, up
to what nothing tells apart. -/
theorem canonicalText_lossless :
    (∀ rules : RuleSet, rules.FromText →
      rules.fingerprint = Blake3.hash (Bytes.ofString rules.canonicalText) ∧
      (∀ source, ofText source rules.canonicalText = .ok ⟨rules, source, rules.entries.length⟩) ∧
      ∀ other : RuleSet, other.FromText → rules.canonicalText = other.canonicalText →
        rules = other) ∧
    ∀ store : RuleStore, store.FromText →
      store.fingerprint = Blake3.hash (Bytes.ofString store.canonicalText) ∧
      (∀ source, ∃ loaded, RuleStore.ofText source store.canonicalText =
        .ok (loaded, store.entries.length) ∧ loaded.Alike store) ∧
      ∀ other : RuleStore, other.FromText → store.canonicalText = other.canonicalText →
        store.Alike other := by
  have hinjective {rules other : RuleSet} (h : rules.FromText) (hother : other.FromText)
      (hsame : rules.canonicalText = other.canonicalText) : rules = other := by
    have hload := ofText_canonicalText h.writable ""
    rw [hsame, ofText_canonicalText hother.writable ""] at hload
    exact (congrArg Loaded.rules (Except.ok.inj hload)).symm
  constructor
  · intro rules h
    exact ⟨rfl, ofText_canonicalText h.writable, fun _ => hinjective h⟩
  · intro store h
    refine ⟨rfl, RuleStore.exists_ofText_canonicalText h, ?_⟩
    intro other hother hsame
    have hkept := h.reachable.kept
    have hkept' := hother.reachable.kept
    rw [RuleStore.canonicalText_toRuleSet hkept, RuleStore.canonicalText_toRuleSet hkept'] at hsame
    exact hkept.alike hkept' (hinjective h.toRuleSet hother.toRuleSet hsame)

/-- Four rules of different kinds and levels, out of order, with tabs and a comment: the canonical
text has them in order, and loads the same set and the same store. -/
theorem canonicalText_of_each_kind :
    let rules := empty.requestAll [(.field "a/B" "c" (some "I"), ⟨.pub, .unstated⟩),
      (.method "a/B" "<init>" "()V", ⟨.prot, .dropFinal⟩),
      (.classItself "a/B", ⟨.priv, .addFinal⟩), (.field "x" "y" none, ⟨.package, .unstated⟩)]
    let text := "public\ta/B.c  I\n#\nprotected-f a/B/<init> ()V\nprivate+f a/B\ndefault x.y\n"
    let sorted := "private+f a/B\npublic a/B/c I\ndefault x.y\nprotected-f a/B/<init> ()V\n"
    ofText "rules.at" text = .ok ⟨rules, "rules.at", 4⟩ ∧
      ofText "copy.at" sorted = .ok ⟨rules, "copy.at", 4⟩ ∧
      (∀ other : RuleSet, other.FromText → sorted = other.canonicalText → rules = other) ∧
      ∃ store, RuleStore.ofText "rules.at" text = .ok (store, 4) ∧
        ∃ loaded, RuleStore.ofText "copy.at" sorted = .ok (loaded, 4) ∧ loaded.Alike store := by
  intro rules text sorted
  have hloaded : ofText "rules.at" text = .ok ⟨rules, "rules.at", 4⟩ := by
    subst text rules
    with_unfolding_all rfl
  have hsorted : rules.canonicalText = sorted := rfl
  obtain ⟨_, hagain, hsame⟩ := canonicalText_lossless.1 rules (.ofText hloaded)
  obtain ⟨store, hstore, hkept, hrules⟩ := RuleStore.exists_ofText_of_loaded hloaded
  have htext : store.canonicalText = sorted := by
    rw [RuleStore.canonicalText_toRuleSet hkept, hrules, hsorted]
  have hcount : store.entries.length = 4 := by
    rw [← RuleStore.entries_toRuleSet hkept, hrules]
    rfl
  obtain ⟨_, hcopy, _⟩ := canonicalText_lossless.2 store (.ofText hstore)
  rw [htext, hcount] at hcopy
  exact ⟨hloaded, hagain "copy.at", hsame, store, hstore, hcopy "copy.at"⟩

end RuleSet

end AccessWidening
