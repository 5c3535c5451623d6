import AccessWidening.ClassDecl
import AccessWidening.RuleSet.Bucket

/-!
Widening one class by the rules of its bucket.

Every rule is used up by the first member that it names, so a member that is declared twice is
widened once by an exact rule. What remains of the bucket afterwards found no member.
-/

namespace AccessWidening

/-- Members after a walk over their declarations, the rules that are left, and how many members
changed. -/
structure Walk where
  members : List Member
  pending : RuleSet
  changed : Nat

/-- Takes the level that the rules request for a field of `owner`: that of the rule with its
descriptor joined with that of the rule without one. Both rules are used up. -/
def RuleSet.takeField (rules : RuleSet) (owner : String) (m : Member) : Option Level × RuleSet :=
  let described := Element.field owner m.name (some m.descriptor)
  let byName := Element.field owner m.name none
  (Option.merge Level.join (rules.level? described) (rules.level? byName),
    (rules.erase described).erase byName)

def RuleSet.takeMethod (rules : RuleSet) (owner : String) (m : Member) : Option Level × RuleSet :=
  let described := Element.method owner m.name m.descriptor
  (rules.level? described, rules.erase described)

/-- Widens members first to last, each by the level that `take` finds for it. -/
def widenMembers (take : RuleSet → Member → Option Level × RuleSet) (pending : RuleSet) :
    List Member → Walk
  | [] => ⟨[], pending, 0⟩
  | m :: rest =>
    let (request, left) := take pending m
    let after := m.widen request
    let walk := widenMembers take left rest
    ⟨after :: walk.members, walk.pending, walk.changed + if after = m then 0 else 1⟩

/-- A walk leaves no rules but those that it began with. -/
theorem mem_of_mem_pending_widenMembers {take : RuleSet → Member → Option Level × RuleSet}
    (htake : ∀ rules m e, e ∈ (take rules m).2.elements → e ∈ rules.elements) {pending : RuleSet}
    {members : List Member} {e : Element}
    (h : e ∈ (widenMembers take pending members).pending.elements) : e ∈ pending.elements := by
  induction members generalizing pending with
  | nil => exact h
  | cons m rest ih => exact htake pending m e (ih h)

namespace Bucket

/-- Widens fields by the rules for members. Without a rule for a field there is nothing to walk
for. -/
def walkFields (bucket : Bucket) (fields : List Member) : Walk :=
  let rules := bucket.rules.filter Element.isMember
  if bucket.wantsFieldChange then widenMembers (RuleSet.takeField · bucket.owner) rules fields
  else ⟨fields, rules, 0⟩

def walkMethods (bucket : Bucket) (rules : RuleSet) (methods : List Member) : Walk :=
  if bucket.wantsMethodChange then widenMembers (RuleSet.takeMethod · bucket.owner) rules methods
  else ⟨methods, rules, 0⟩

variable {bucket : Bucket} {rules : RuleSet} {members : List Member} {e : Element}

theorem mem_of_mem_pending_walkFields (h : e ∈ (bucket.walkFields members).pending.elements) :
    e ∈ bucket.rules.elements := by
  unfold walkFields at h
  split at h
  · refine (RuleSet.mem_elements_filter.mp (mem_of_mem_pending_widenMembers ?_ h)).1
    intro rules m e he
    exact (RuleSet.mem_elements_filter.mp (RuleSet.mem_elements_filter.mp he).1).1
  · exact (RuleSet.mem_elements_filter.mp h).1

theorem mem_of_mem_pending_walkMethods
    (h : e ∈ (bucket.walkMethods rules members).pending.elements) : e ∈ rules.elements := by
  unfold walkMethods at h
  split at h
  · refine mem_of_mem_pending_widenMembers ?_ h
    intro rules m e he
    exact (RuleSet.mem_elements_filter.mp he).1
  · exact h

end Bucket

/-- A class after its rules were applied, what is left of its bucket, and how many members
changed. -/
structure Widened where
  decl : ClassDecl
  leftover : Bucket
  membersChanged : Nat

def Bucket.apply (bucket : Bucket) (decl : ClassDecl) : Widened :=
  let access := match bucket.accessChange with
    | some level => decl.access.widen level
    | none => decl.access
  let fields := bucket.walkFields decl.fields
  let methods := bucket.walkMethods fields.pending decl.methods
  { decl := { decl with access, fields := fields.members, methods := methods.members }
    leftover := ⟨bucket.owner, methods.pending, fun e he => bucket.owned e
      (mem_of_mem_pending_walkFields (mem_of_mem_pending_walkMethods he))⟩
    membersChanged := fields.changed + methods.changed }

end AccessWidening
