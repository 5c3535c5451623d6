import AccessWidening.Proofs.Access.Requests
import AccessWidening.Proofs.Listing
import AccessWidening.RuleSet.Basic

/-!
Many requests at once: the level of each element is the join of all levels requested for it, in
whatever order they came. A set whose own entries are requested anew is the same set.
-/

namespace AccessWidening

instance : Std.Commutative Level.join := ⟨Level.join_comm⟩

instance : Std.Associative Level.join := ⟨Level.join_assoc⟩

instance : Std.IdempotentOp Level.join := ⟨Level.join_self⟩

namespace RuleSet

def levelsFor (e : Element) (requests : List (Element × Level)) : List Level :=
  requests.filterMap fun request => if request.1 = e then some request.2 else none

theorem mem_levelsFor {e : Element} {requests : List (Element × Level)} {level : Level} :
    level ∈ levelsFor e requests ↔ (e, level) ∈ requests := by
  unfold levelsFor
  rw [List.mem_filterMap]
  constructor
  · rintro ⟨⟨k, held⟩, hmem, hlevel⟩
    split at hlevel
    · next hk =>
      obtain rfl := Option.some.inj hlevel
      exact hk ▸ hmem
    · cases hlevel
  · intro hmem
    exact ⟨(e, level), hmem, if_pos rfl⟩

/-- The level after a list of requests is the join of the level before and all levels that were
requested for the element. -/
theorem level?_requestAll (rules : RuleSet) (requests : List (Element × Level)) (e : Element) :
    (rules.requestAll requests).level? e =
      Option.merge Level.join (rules.level? e) (Level.joinAll (levelsFor e requests)) := by
  induction requests generalizing rules with
  | nil => cases hlevel : rules.level? e <;> simp [requestAll, levelsFor, Level.joinAll, hlevel]
  | cons request rest ih =>
      obtain ⟨k, level⟩ := request
      have hstep : rules.requestAll ((k, level) :: rest) =
          (rules.request k level).requestAll rest := rfl
      rw [hstep, ih, level?_request]
      by_cases hk : k = e
      · subst hk
        have hlevels : levelsFor k ((k, level) :: rest) = level :: levelsFor k rest := by
          simp [levelsFor]
        rw [if_pos rfl, hlevels, Level.joinAll]
        cases hheld : rules.level? k with
        | none =>
            cases Level.joinAll (levelsFor k rest) with
            | none => rfl
            | some later => simp [Level.join_comm level later]
        | some held =>
            cases Level.joinAll (levelsFor k rest) with
            | none => rfl
            | some later => simp [Level.join_assoc, Level.join_comm level later]
      · have hlevels : levelsFor e ((k, level) :: rest) = levelsFor e rest := by
          simp [levelsFor, hk]
        rw [if_neg (Ne.symm hk), hlevels]

/-- A set is made of the requests that its entries are. -/
theorem requestAll_entries (rules : RuleSet) : empty.requestAll rules.entries = rules := by
  apply ext_level?
  intro e
  rw [level?_requestAll, level?_empty]
  cases hlevel : rules.level? e with
  | none =>
      have hnone : levelsFor e rules.entries = [] := by
        apply List.eq_nil_iff_forall_not_mem.mpr
        intro level hmem
        rw [mem_levelsFor, ← level?_eq_some_iff, hlevel] at hmem
        cases hmem
      rw [hnone]
      rfl
  | some level =>
      have hagree : ∀ request ∈ levelsFor e rules.entries, request = level := by
        intro request hmem
        rw [mem_levelsFor, ← level?_eq_some_iff, hlevel] at hmem
        exact (Option.some.inj hmem).symm
      have hmem : level ∈ levelsFor e rules.entries :=
        mem_levelsFor.mpr (level?_eq_some_iff.mp hlevel)
      rw [Level.joinAll_eq_some_of_agree (List.ne_nil_of_mem hmem) hagree]
      rfl

theorem requestAll_append (rules : RuleSet) (first second : List (Element × Level)) :
    rules.requestAll (first ++ second) = (rules.requestAll first).requestAll second :=
  List.foldl_append

/-- Lists with the same requests add the same to a set, whatever their order and however often
they repeat a request. -/
theorem requestAll_congr (rules : RuleSet) {requests others : List (Element × Level)}
    (hsame : ∀ request, request ∈ requests ↔ request ∈ others) :
    rules.requestAll requests = rules.requestAll others := by
  apply ext_level?
  intro e
  have hlevels : Level.joinAll (levelsFor e requests) = Level.joinAll (levelsFor e others) := by
    apply Level.joinAll_congr
    intro level
    rw [mem_levelsFor, mem_levelsFor, hsame]
  rw [level?_requestAll, level?_requestAll, hlevels]

/-- What a list of requests holds for an element when nothing was held before. -/
theorem level?_requestAll_empty (requests : List (Element × Level)) (e : Element) :
    (empty.requestAll requests).level? e = Level.joinAll (levelsFor e requests) := by
  rw [level?_requestAll, level?_empty]
  cases Level.joinAll (levelsFor e requests) <;> rfl

/-- A merge joins the levels of both sets, element by element. -/
theorem level?_merge (a b : RuleSet) (e : Element) :
    (a.merge b).level? e = Option.merge Level.join (a.level? e) (b.level? e) := by
  rw [merge, level?_requestAll, ← level?_requestAll_empty, requestAll_entries]

theorem merge_requestAll_empty (rules : RuleSet) (requests : List (Element × Level)) :
    rules.merge (empty.requestAll requests) = rules.requestAll requests := by
  apply ext_level?
  intro e
  rw [level?_merge, level?_requestAll_empty, level?_requestAll]

theorem merge_comm (a b : RuleSet) : a.merge b = b.merge a := by
  apply ext_level?
  intro e
  simp only [level?_merge]
  exact Std.Commutative.comm (a.level? e) (b.level? e)

theorem merge_assoc (a b c : RuleSet) : (a.merge b).merge c = a.merge (b.merge c) := by
  apply ext_level?
  intro e
  simp only [level?_merge]
  exact Std.Associative.assoc (a.level? e) (b.level? e) (c.level? e)

theorem merge_self (a : RuleSet) : a.merge a = a := by
  apply ext_level?
  intro e
  rw [level?_merge]
  exact Std.IdempotentOp.idempotent (a.level? e)

theorem empty_merge (a : RuleSet) : empty.merge a = a := requestAll_entries a

theorem classCount_le_length (rules : RuleSet) : rules.classCount ≤ rules.entries.length := by
  have hlisting := length_listing_le (rules.elements.map Element.owner)
  simpa [classCount, classNames, elements] using hlisting

end RuleSet

end AccessWidening
