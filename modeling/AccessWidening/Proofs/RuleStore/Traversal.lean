import AccessWidening.Pass.Basic
import AccessWidening.Proofs.Element.Order
import AccessWidening.Proofs.RuleStore.Reachable

/-!
The entries of a store are the same in whatever order its hash maps are gone through: they are
sorted before anybody sees them, and no two of them are about the same element.
-/

namespace AccessWidening

theorem sortEntries_congr {requests others : List (Element × Level)} (hperm : requests.Perm others)
    (hdistinct : (others.map (·.1)).Nodup) : sortEntries requests = sortEntries others := by
  have hrequests : (requests.map (·.1)).Nodup := (hperm.map _).nodup_iff.mpr hdistinct
  apply eq_of_pairwise_of_mem_iff (r := fun a b : Element × Level => a.1 < b.1)
    (fun _ _ => Element.lt_asymm) (increasing_sortEntries hrequests)
    (increasing_sortEntries hdistinct)
  intro entry
  rw [mem_sortEntries, mem_sortEntries, hperm.mem_iff]

namespace RuleStore

/-- An order in which to go through the hash maps of a store: that of its buckets, and in each
bucket those of the fields and of the methods. -/
structure Traversal (store : RuleStore) where
  classes : List (String × ClassRules)
  fields : ClassRules → List (Element × Level)
  methods : ClassRules → List (Element × Level)
  classes_perm : classes.Perm store.classes.toList
  fields_perm : ∀ bucket : ClassRules, (fields bucket).Perm bucket.fields.toList
  methods_perm : ∀ bucket : ClassRules, (methods bucket).Perm bucket.methods.toList

namespace Traversal

variable {store : RuleStore} (traversal : store.Traversal)

def requests (bucket : ClassRules) : List (Element × Level) :=
  bucket.access.toList.map (fun level => (.classItself bucket.owner, level)) ++
    traversal.fields bucket ++ traversal.methods bucket

def entries : List (Element × Level) :=
  sortEntries (traversal.classes.flatMap fun entry => sortEntries (traversal.requests entry.2))

theorem requests_perm (bucket : ClassRules) :
    (traversal.requests bucket).Perm bucket.requests :=
  ((List.Perm.refl _).append (traversal.fields_perm bucket)).append (traversal.methods_perm bucket)

theorem collected_perm :
    (traversal.classes.flatMap fun entry => sortEntries (traversal.requests entry.2)).Perm
      (store.classes.toList.flatMap fun entry => entry.2.entries) := by
  have hbucket (bucket : ClassRules) :
      (sortEntries (traversal.requests bucket)).Perm bucket.entries :=
    (List.mergeSort_perm _ _).trans
      ((traversal.requests_perm bucket).trans (List.mergeSort_perm bucket.requests _).symm)
  exact traversal.classes_perm.flatMap fun entry _ => hbucket entry.2

theorem entries_eq (h : store.Kept) : traversal.entries = store.entries :=
  sortEntries_congr traversal.collected_perm (nodup_collected h)

end Traversal

def backwards (store : RuleStore) : store.Traversal where
  classes := store.classes.toList.reverse
  fields bucket := bucket.fields.toList.reverse
  methods bucket := bucket.methods.toList.reverse
  classes_perm := List.reverse_perm _
  fields_perm _ := List.reverse_perm _
  methods_perm _ := List.reverse_perm _

end RuleStore

namespace Element

/-- The order of elements is linear, and it is that of their parts. So the lists that are made of
elements are canonical: the stale rules of an error and of a report, and the entries of a store,
say which elements there are, and neither in what order nor how often they were come upon. -/
theorem order_linear_and_lists_canonical :
    IsLinear order ∧ (∀ a b : Element, order a b = a.compareParts b) ∧
    (∀ elements : List Element, Increasing (sortedDistinct elements) ∧
      (∀ e, e ∈ sortedDistinct elements ↔ e ∈ elements) ∧
      (StaleRules.ofList elements).unmatched = sortedDistinct elements) ∧
    (∀ pass : Pass, pass.report.unmatched.unmatched =
      sortedDistinct (pass.stale ++ pass.pending.elements)) ∧
    (∀ elements others : List Element, sortedDistinct elements = sortedDistinct others ↔
      ∀ e, e ∈ elements ↔ e ∈ others) ∧
    ∀ store : RuleStore, store.Reachable → ∀ traversal : store.Traversal,
      traversal.entries = store.entries := by
  simp only [sortedDistinct_eq_listing]
  refine ⟨isLinear_order, order_eq_compareParts, ?_, fun _ => rfl, fun _ _ => listing_eq_iff, ?_⟩
  · intro elements
    exact ⟨increasing_listing elements, fun _ => mem_listing, rfl⟩
  · intro store hstore traversal
    exact traversal.entries_eq hstore.kept

/-- A store with a field of one class and another class, gone through backwards: the class comes
first, although its name is the later one. -/
theorem entries_of_backwards_traversal :
    let store := (RuleStore.empty.add (.field "a/A" "x" none) ⟨.pub, .unstated⟩).add
      (.classItself "b/B") ⟨.prot, .addFinal⟩
    store.Reachable ∧ store.backwards.entries =
      [(.classItself "b/B", ⟨.prot, .addFinal⟩), (.field "a/A" "x" none, ⟨.pub, .unstated⟩)] := by
  intro store
  have hstore : store.Reachable := .add (.add .empty _ _) _ _
  obtain ⟨-, -, -, -, -, hentries⟩ := order_linear_and_lists_canonical
  have hrules : store.toRuleSet = (RuleSet.empty.request (.field "a/A" "x" none)
      ⟨.pub, .unstated⟩).request (.classItself "b/B") ⟨.prot, .addFinal⟩ := by
    rw [RuleStore.toRuleSet_add (RuleStore.kept_empty.add _ _), RuleStore.toRuleSet_add_empty]
  refine ⟨hstore, ?_⟩
  rw [hentries store hstore, ← RuleStore.entries_toRuleSet hstore.kept, hrules]
  decide

end Element

end AccessWidening
