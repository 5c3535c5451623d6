import AccessWidening.Proofs.RuleStore.Alike

/-!
What a store holds depends on the rules that were loaded into it and on nothing else: not on their
order, not on how they were spread over sources or over stores that were merged later, and not on
how often a rule came.
-/

namespace AccessWidening

namespace RuleStore

variable {a b c : RuleStore}

theorem merge_comm (ha : a.Kept) (hb : b.Kept) : (a.merge b).Alike (b.merge a) := by
  apply (ha.merge hb).1.alike (hb.merge ha).1
  rw [(ha.merge hb).2, (hb.merge ha).2, RuleSet.merge_comm]

theorem merge_assoc (ha : a.Kept) (hb : b.Kept) (hc : c.Kept) :
    ((a.merge b).merge c).Alike (a.merge (b.merge c)) := by
  have hleft := ha.merge hb
  have hright := hb.merge hc
  apply (hleft.1.merge hc).1.alike (ha.merge hright.1).1
  rw [(hleft.1.merge hc).2, hleft.2, (ha.merge hright.1).2, hright.2, RuleSet.merge_assoc]

theorem merge_self (ha : a.Kept) : (a.merge a).Alike a := by
  apply (ha.merge ha).1.alike ha
  rw [(ha.merge ha).2, RuleSet.merge_self]

theorem empty_merge (ha : a.Kept) : (empty.merge a).Alike a := by
  apply (kept_empty.merge ha).1.alike ha
  rw [(kept_empty.merge ha).2, toRuleSet_empty, RuleSet.empty_merge]

theorem merge_empty (ha : a.Kept) : (a.merge empty).Alike a := by
  apply (ha.merge kept_empty).1.alike ha
  rw [(ha.merge kept_empty).2, toRuleSet_empty, RuleSet.merge_comm, RuleSet.empty_merge]

end RuleStore

/-- A way of loading rules into a store: requests one at a time, whole sources, and stores that were
loaded in a way of their own and are then merged. -/
inductive Loading where
  | nothing
  | request (before : Loading) (e : Element) (level : Level)
  | text (before : Loading) (source text : String)
  | merge (before other : Loading)

namespace Loading

/-- The requests that the rules of a source make. A source with a bad line makes none. -/
def requestsOf (source text : String) : List (Element × Level) :=
  match Rule.ofText source text with
  | .ok found => found.map fun rule => (rule.element, rule.level)
  | .error _ => []

def requests : Loading → List (Element × Level)
  | nothing => []
  | request before e level => before.requests ++ [(e, level)]
  | text before source content => before.requests ++ requestsOf source content
  | merge before other => before.requests ++ other.requests

/-- The store that is loaded. It stays as it is when a source is refused. -/
def store : Loading → RuleStore
  | nothing => .empty
  | request before e level => before.store.add e level
  | text before source content =>
    match before.store.addText source content with
    | .ok (after, _) => after
    | .error _ => before.store
  | merge before other => before.store.merge other.store

theorem store_text (before : Loading) (source content : String) :
    (text before source content).store = before.store.addAll (requestsOf source content) := by
  rw [store, requestsOf]
  cases hfound : Rule.ofText source content with
  | ok found => rw [RuleStore.addText_of_rules before.store hfound]
  | error error =>
      rw [RuleStore.addText_of_error before.store hfound]
      rfl

/-- Every way of loading makes the rule set of its requests. -/
theorem kept_and_rules (loading : Loading) : loading.store.Kept ∧
    loading.store.toRuleSet = RuleSet.empty.requestAll loading.requests := by
  induction loading with
  | nothing => exact ⟨RuleStore.kept_empty, RuleStore.toRuleSet_empty⟩
  | request before e level ih =>
      obtain ⟨hkept, hrules⟩ := ih
      refine ⟨hkept.add e level, ?_⟩
      rw [store, RuleStore.toRuleSet_add hkept, hrules, requests, RuleSet.requestAll_append]
      rfl
  | text before source content ih =>
      obtain ⟨hkept, hrules⟩ := ih
      obtain ⟨hafter, hadded⟩ := hkept.addAll (requestsOf source content)
      rw [store_text]
      refine ⟨hafter, ?_⟩
      rw [hadded, hrules, requests, RuleSet.requestAll_append]
  | merge before other ih ihother =>
      obtain ⟨hkept, hrules⟩ := ih
      obtain ⟨hother, hothers⟩ := ihother
      obtain ⟨hmerged, hjoined⟩ := hkept.merge hother
      refine ⟨hmerged, ?_⟩
      rw [store, hjoined, hrules, hothers, RuleSet.merge_requestAll_empty, requests,
        RuleSet.requestAll_append]

theorem alike_of_same_requests {one two : Loading}
    (hsame : ∀ request, request ∈ one.requests ↔ request ∈ two.requests) :
    one.store.Alike two.store := by
  obtain ⟨hone, hrules⟩ := one.kept_and_rules
  obtain ⟨htwo, hothers⟩ := two.kept_and_rules
  apply hone.alike htwo
  rw [hrules, hothers]
  exact RuleSet.requestAll_congr _ hsame

theorem mem_entries_iff (loading : Loading) (e : Element) (level : Level) :
    (e, level) ∈ loading.store.entries ↔
      Level.joinAll (RuleSet.levelsFor e loading.requests) = some level := by
  obtain ⟨hkept, hrules⟩ := loading.kept_and_rules
  rw [RuleStore.mem_entries hkept, ← RuleStore.level?_toRuleSet hkept, hrules,
    RuleSet.level?_requestAll_empty]

/-- Loading order never matters. Two ways of loading the same requests make stores that nothing
tells apart, the level held for an element is the join of all levels requested for it, and merging
stores is commutative, associative and idempotent, with the empty store as unit. -/
theorem order_irrelevant :
    (∀ one two : Loading, (∀ request, request ∈ one.requests ↔ request ∈ two.requests) →
      one.store.Alike two.store) ∧
    (∀ (loading : Loading) (e : Element) (level : Level), (e, level) ∈ loading.store.entries ↔
      Level.joinAll (RuleSet.levelsFor e loading.requests) = some level) ∧
    ∀ a b c : RuleStore, a.Reachable → b.Reachable → c.Reachable →
      (a.merge b).Alike (b.merge a) ∧
      ((a.merge b).merge c).Alike (a.merge (b.merge c)) ∧
      (a.merge a).Alike a ∧ (RuleStore.empty.merge a).Alike a ∧ (a.merge .empty).Alike a := by
  refine ⟨fun _ _ => alike_of_same_requests, mem_entries_iff, ?_⟩
  intro a b c ha hb hc
  exact ⟨RuleStore.merge_comm ha.kept hb.kept, RuleStore.merge_assoc ha.kept hb.kept hc.kept,
    RuleStore.merge_self ha.kept, RuleStore.empty_merge ha.kept, RuleStore.merge_empty ha.kept⟩

/-- Two requests made one after the other, and the same two made in stores of their own of which
one is merged in twice. -/
theorem alike_of_two_requests :
    let first := nothing.request (.classItself "a/B") ⟨.prot, .dropFinal⟩
    let second := nothing.request (.classItself "a/B") ⟨.pub, .unstated⟩
    let both := first.request (.classItself "a/B") ⟨.pub, .unstated⟩
    let merged := (second.merge first).merge second
    both.store.Alike merged.store ∧
      (.classItself "a/B", ⟨.pub, .dropFinal⟩) ∈ merged.store.entries ∧
      (first.store.merge second.store).Alike (second.store.merge first.store) := by
  intro first second both merged
  obtain ⟨halike, hlevel, hlaws⟩ := order_irrelevant
  have hfirst : first.store.Reachable := .add .empty _ _
  have hsecond : second.store.Reachable := .add .empty _ _
  refine ⟨halike both merged ?_, (hlevel merged _ _).mpr (by decide), ?_⟩
  · intro request
    simp only [both, merged, first, second, requests, List.nil_append, List.mem_append,
      List.mem_singleton]
    grind
  · exact (hlaws _ _ _ hfirst hsecond .empty).1

end Loading

end AccessWidening
