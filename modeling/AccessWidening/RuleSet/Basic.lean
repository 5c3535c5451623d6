import AccessWidening.Access.Level
import AccessWidening.Element.Order
import AccessWidening.Listing

/-!
Rule sets: for each of finitely many elements, the level requested for it.

A set is stored as its one strictly increasing list of entries, so equal sets are equal values.
`level?` is the view that the operations are described by: a request joins one level, a merge joins
pointwise, and a restriction keeps the levels of some elements.
-/

namespace AccessWidening

/-- A finite map from elements to the levels requested for them. -/
structure RuleSet where
  entries : List (Element × Level)
  increasing : entries.Pairwise fun a b => a.1 < b.1
  deriving DecidableEq

namespace RuleSet

/-- Joins a level into an increasing list of entries, at the place of its element. -/
def joinEntry (e : Element) (level : Level) : List (Element × Level) → List (Element × Level)
  | [] => [(e, level)]
  | (k, held) :: rest =>
    match compare e k with
    | .lt => (e, level) :: (k, held) :: rest
    | .eq => (k, held.join level) :: rest
    | .gt => (k, held) :: joinEntry e level rest

theorem mem_joinEntry {e : Element} {level : Level} {entries : List (Element × Level)}
    {entry : Element × Level} (h : entry ∈ joinEntry e level entries) :
    entry.1 = e ∨ entry ∈ entries := by
  induction entries with
  | nil => simp_all [joinEntry]
  | cons first rest ih =>
    obtain ⟨k, held⟩ := first
    simp only [joinEntry] at h
    split at h
    · obtain rfl | h := List.mem_cons.mp h
      · exact .inl rfl
      · exact .inr h
    · next hk =>
      obtain rfl | h := List.mem_cons.mp h
      · exact .inl (Std.compare_eq_iff_eq.mp hk).symm
      · exact .inr (List.mem_cons_of_mem _ h)
    · obtain rfl | h := List.mem_cons.mp h
      · exact .inr List.mem_cons_self
      · exact (ih h).imp_right (List.mem_cons_of_mem _)

theorem increasing_joinEntry {e : Element} {level : Level} {entries : List (Element × Level)}
    (h : entries.Pairwise fun a b => a.1 < b.1) :
    (joinEntry e level entries).Pairwise fun a b => a.1 < b.1 := by
  induction entries with
  | nil => simp [joinEntry]
  | cons first rest ih =>
    obtain ⟨k, held⟩ := first
    obtain ⟨hk, hrest⟩ := List.pairwise_cons.mp h
    simp only [joinEntry]
    split
    · next hek =>
      refine List.pairwise_cons.mpr ⟨fun entry hentry => ?_, h⟩
      obtain rfl | hentry := List.mem_cons.mp hentry
      · exact hek
      · exact Element.lt_trans hek (hk entry hentry)
    · exact List.pairwise_cons.mpr ⟨hk, hrest⟩
    · next hek =>
      refine List.pairwise_cons.mpr ⟨fun entry hentry => ?_, ih hrest⟩
      obtain he | hentry := mem_joinEntry hentry
      · rw [he]
        exact Element.order_gt_iff.mp hek
      · exact hk entry hentry

def empty : RuleSet := ⟨[], List.Pairwise.nil⟩

/-- Adds a minimum access level for an element; it joins what was requested before. -/
def request (rules : RuleSet) (e : Element) (level : Level) : RuleSet :=
  ⟨joinEntry e level rules.entries, increasing_joinEntry rules.increasing⟩

def requestAll (rules : RuleSet) (requests : List (Element × Level)) : RuleSet :=
  requests.foldl (fun held entry => held.request entry.1 entry.2) rules

/-- The rules of both sets; levels for the same element are joined. -/
def merge (a b : RuleSet) : RuleSet := a.requestAll b.entries

def level? (rules : RuleSet) (e : Element) : Option Level := rules.entries.lookup e

def elements (rules : RuleSet) : List Element := rules.entries.map (·.1)

def filter (rules : RuleSet) (p : Element → Bool) : RuleSet :=
  ⟨rules.entries.filter fun entry => p entry.1, rules.increasing.filter _⟩

def erase (rules : RuleSet) (e : Element) : RuleSet := rules.filter (· ≠ e)

def ofOwner (rules : RuleSet) (owner : String) : RuleSet := rules.filter (·.owner = owner)

def withoutOwner (rules : RuleSet) (owner : String) : RuleSet := rules.filter (·.owner ≠ owner)

def isEmpty (rules : RuleSet) : Bool := rules.entries.isEmpty

/-- The classes that are named by a rule or own a member that is, in increasing order. -/
def classNames (rules : RuleSet) : List String := listing (rules.elements.map Element.owner)

def classCount (rules : RuleSet) : Nat := rules.classNames.length

def summary (rules : RuleSet) : String :=
  "AccessTransformationSet(" ++ toString rules.classCount ++ " classes, " ++
    toString rules.entries.length ++ " rules)"

theorem ext_entries {a b : RuleSet} (h : a.entries = b.entries) : a = b := by
  cases a
  cases b
  congr

theorem increasing_elements (rules : RuleSet) : Increasing rules.elements :=
  List.pairwise_map.mpr rules.increasing

theorem lookup_cons (k e : Element) (level : Level) (rest : List (Element × Level)) :
    ((e, level) :: rest).lookup k = if k = e then some level else rest.lookup k := by
  by_cases h : k = e
  · simp [h]
  · have differ : (k == e) = false := by simpa using h
    rw [List.lookup_cons, differ, if_neg h]

/-- A level is found for an element exactly when the pair is an entry. -/
theorem level?_eq_some_iff {rules : RuleSet} {e : Element} {level : Level} :
    rules.level? e = some level ↔ (e, level) ∈ rules.entries := by
  obtain ⟨entries, h⟩ := rules
  simp only [level?]
  induction entries with
  | nil => simp
  | cons first rest ih =>
    obtain ⟨k, held⟩ := first
    obtain ⟨hk, hrest⟩ := List.pairwise_cons.mp h
    rw [lookup_cons]
    by_cases hek : e = k
    · subst hek
      have fresh : (e, level) ∉ rest := fun hmem => Element.lt_irrefl e (hk _ hmem)
      simp [fresh, eq_comm]
    · simp [hek, ih hrest]

theorem level?_eq_none_iff {rules : RuleSet} {e : Element} :
    rules.level? e = none ↔ e ∉ rules.elements := by
  rw [Option.eq_none_iff_forall_ne_some]
  simp only [ne_eq, level?_eq_some_iff, elements, List.mem_map, Prod.exists, exists_and_right,
    exists_eq_right, not_exists]

theorem mem_elements_iff {rules : RuleSet} {e : Element} :
    e ∈ rules.elements ↔ ∃ level, rules.level? e = some level := by
  rw [← Option.isSome_iff_exists, Option.isSome_iff_ne_none, ne_eq, level?_eq_none_iff,
    Classical.not_not]

/-- Sets that request the same level for every element are equal. -/
@[ext]
theorem ext_level? {a b : RuleSet} (h : ∀ e, a.level? e = b.level? e) : a = b := by
  refine ext_entries (eq_of_pairwise_of_mem_iff (fun _ _ => Element.lt_asymm)
    a.increasing b.increasing fun entry => ?_)
  rw [← level?_eq_some_iff, ← level?_eq_some_iff, h]

@[simp]
theorem level?_empty (e : Element) : empty.level? e = none := rfl

theorem lookup_joinEntry {e k : Element} {level : Level} {entries : List (Element × Level)}
    (h : entries.Pairwise fun a b => a.1 < b.1) :
    (joinEntry e level entries).lookup k =
      if k = e then some (Level.joinHeld (entries.lookup e) level) else entries.lookup k := by
  induction entries with
  | nil => simp [joinEntry, lookup_cons]
  | cons first rest ih =>
    obtain ⟨f, held⟩ := first
    obtain ⟨hf, hrest⟩ := List.pairwise_cons.mp h
    simp only [joinEntry]
    split
    · next hef =>
      have fresh : rest.lookup e = none := List.lookup_eq_none_iff.mpr fun entry hentry => by
        simpa using Element.ne_of_lt (Element.lt_trans hef (hf entry hentry))
      simp [lookup_cons, Element.ne_of_lt hef, fresh]
    · next hef =>
      obtain rfl := Std.compare_eq_iff_eq.mp hef
      by_cases hk : k = e <;> simp [lookup_cons, hk]
    · next hef =>
      have hfe : f < e := Element.order_gt_iff.mp hef
      have differ : e ≠ f := (Element.ne_of_lt hfe).symm
      rw [lookup_cons, ih hrest, lookup_cons, lookup_cons]
      by_cases hk : k = e
      · simp [hk, differ]
      · simp [hk]

/-- A request joins its level at its element and leaves the other elements alone. -/
theorem level?_request (rules : RuleSet) (e k : Element) (level : Level) :
    (rules.request e level).level? k =
      if k = e then some (Level.joinHeld (rules.level? e) level) else rules.level? k :=
  lookup_joinEntry rules.increasing

/-- Filtering keeps the levels of the chosen elements and no others. -/
theorem level?_filter (rules : RuleSet) (p : Element → Bool) (k : Element) :
    (rules.filter p).level? k = if p k then rules.level? k else none := by
  apply Option.ext
  intro level
  rw [level?_eq_some_iff]
  by_cases hp : p k <;> simp [filter, hp, level?_eq_some_iff]

theorem level?_erase (rules : RuleSet) (e k : Element) :
    (rules.erase e).level? k = if k = e then none else rules.level? k := by
  rw [erase, level?_filter]
  by_cases h : k = e <;> simp [h]

theorem level?_ofOwner (rules : RuleSet) (owner : String) (k : Element) :
    (rules.ofOwner owner).level? k = if k.owner = owner then rules.level? k else none := by
  simp [ofOwner, level?_filter]

theorem level?_withoutOwner (rules : RuleSet) (owner : String) (k : Element) :
    (rules.withoutOwner owner).level? k = if k.owner = owner then none else rules.level? k := by
  rw [withoutOwner, level?_filter]
  by_cases h : k.owner = owner <;> simp [h]

end RuleSet

end AccessWidening
