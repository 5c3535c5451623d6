import AccessWidening.Stale

/-!
Buckets: the rules of a set that concern one class.

A class is widened by its bucket, which is taken out of the set as a whole. A bucket is clear
when it holds no rule for a member; a rule for the class itself never keeps it from being clear,
because a class that is visited always matches it.
-/

namespace AccessWidening

/-- Rules that all concern one class or its members. -/
structure Bucket where
  owner : String
  rules : RuleSet
  owned : ∀ e ∈ rules.elements, e.owner = owner
  deriving DecidableEq

theorem RuleSet.mem_elements_filter {rules : RuleSet} {p : Element → Bool} {e : Element} :
    e ∈ (rules.filter p).elements ↔ e ∈ rules.elements ∧ p e = true := by
  simp only [RuleSet.elements, RuleSet.filter, List.mem_map, List.mem_filter]
  constructor
  · rintro ⟨entry, ⟨hentry, hp⟩, rfl⟩
    exact ⟨⟨entry, hentry, rfl⟩, hp⟩
  · rintro ⟨⟨entry, hentry, rfl⟩, hp⟩
    exact ⟨entry, ⟨hentry, hp⟩, rfl⟩

def RuleSet.bucket? (rules : RuleSet) (owner : String) : Option Bucket :=
  if (rules.ofOwner owner).isEmpty then none
  else some ⟨owner, rules.ofOwner owner, fun _ he => by
    simpa using (RuleSet.mem_elements_filter.mp he).2⟩

/-- The bucket of a class and the rules that concern other classes. -/
def RuleSet.takeBucket (rules : RuleSet) (owner : String) : Option Bucket × RuleSet :=
  (rules.bucket? owner, rules.withoutOwner owner)

namespace Bucket

def accessChange (bucket : Bucket) : Option Level := bucket.rules.level? (.classItself bucket.owner)

def wantsFieldChange (bucket : Bucket) : Bool := bucket.rules.elements.any (·.kind = .field)

def wantsMethodChange (bucket : Bucket) : Bool := bucket.rules.elements.any (·.kind = .method)

def remaining (bucket : Bucket) : List Element := bucket.rules.elements

def members (bucket : Bucket) : List Element := bucket.remaining.filter Element.isMember

def isClear (bucket : Bucket) : Bool := bucket.members.isEmpty

/-- Fails with the rules for members unless there are none. -/
def ensureClear (bucket : Bucket) : Except StaleRules Unit :=
  if bucket.isClear then .ok () else .error (StaleRules.ofList bucket.members)

theorem mem_members {bucket : Bucket} {e : Element} :
    e ∈ bucket.members ↔ e ∈ bucket.rules.elements ∧ e.isMember = true :=
  List.mem_filter

theorem increasing_members (bucket : Bucket) : Increasing bucket.members :=
  bucket.rules.increasing_elements.filter _

theorem ensureClear_eq_ok {bucket : Bucket} (h : bucket.members = []) :
    bucket.ensureClear = .ok () := if_pos (List.isEmpty_iff.mpr h)

theorem ensureClear_eq_error {bucket : Bucket} (h : bucket.members ≠ []) :
    bucket.ensureClear = .error (StaleRules.ofList bucket.members) :=
  if_neg fun hempty => h (List.isEmpty_iff.mp hempty)

end Bucket

end AccessWidening
