import Mathlib.Data.List.Basic
import AccessWidening.Pass.Widening
import AccessWidening.Proofs.Access.Widen
import AccessWidening.Proofs.Declaration.Place

/-!
The walk over the members of a class, for fields and methods alike.

Both walks take, for each member, the rules for the elements that name it, and use them up. What is
left after a walk are the rules whose element names no member walked over, and a member is widened
by those of its rules that no earlier member used up.
-/

namespace AccessWidening

namespace RuleSet

def requestsFor (rules : RuleSet) (names : List Element) : List Level :=
  names.filterMap rules.level?

theorem mem_requestsFor {rules : RuleSet} {names : List Element} {level : Level} :
    level ∈ rules.requestsFor names ↔ ∃ e ∈ names, rules.level? e = some level :=
  List.mem_filterMap

/-- Sets that agree on some elements make the same requests for them. -/
theorem requestsFor_congr {a b : RuleSet} {names : List Element}
    (h : ∀ e ∈ names, a.level? e = b.level? e) : a.requestsFor names = b.requestsFor names :=
  List.filterMap_congr h

theorem requestsFor_eq_nil_iff {rules : RuleSet} {names : List Element} :
    rules.requestsFor names = [] ↔ ∀ e ∈ names, rules.level? e = none :=
  List.filterMap_eq_nil_iff

def without (rules : RuleSet) (names : List Element) : RuleSet := names.foldl erase rules

theorem level?_without (rules : RuleSet) (names : List Element) (e : Element) :
    (rules.without names).level? e = if e ∈ names then none else rules.level? e := by
  unfold without
  induction names generalizing rules with
  | nil => rfl
  | cons first rest ih =>
      rw [List.foldl_cons, ih, level?_erase]
      by_cases hrest : e ∈ rest
      · simp [hrest]
      · simp [hrest]

/-- A walk's way to take the rules for a member: all that `names` gives for it, joined. -/
def TakesNames (take : RuleSet → Member → Option Level × RuleSet)
    (names : Member → List Element) : Prop :=
  ∀ rules m, take rules m =
    (Level.joinAll (rules.requestsFor (names m)), rules.without (names m))

theorem takes_takeField (owner : String) :
    TakesNames (RuleSet.takeField · owner) (Member.fieldNames owner) := by
  intro rules m
  have hrequest : Option.merge Level.join
      (rules.level? (.field owner m.name (some m.descriptor)))
      (rules.level? (.field owner m.name none)) =
        Level.joinAll (rules.requestsFor (m.fieldNames owner)) := by
    unfold requestsFor Member.fieldNames
    cases hdescribed : rules.level? (.field owner m.name (some m.descriptor)) with
    | none =>
        cases hbyName : rules.level? (.field owner m.name none) <;>
          simp [hdescribed, hbyName, Level.joinAll]
    | some described =>
        cases hbyName : rules.level? (.field owner m.name none) with
        | none => simp [hdescribed, hbyName, Level.joinAll]
        | some byName =>
            simp [hdescribed, hbyName, Level.joinAll, Level.join_comm described byName]
  exact Prod.ext hrequest rfl

theorem takes_takeMethod (owner : String) :
    TakesNames (RuleSet.takeMethod · owner) (Member.methodNames owner) := by
  intro rules m
  have hrequest : rules.level? (.method owner m.name m.descriptor) =
      Level.joinAll (rules.requestsFor (m.methodNames owner)) := by
    unfold requestsFor Member.methodNames
    cases hrule : rules.level? (.method owner m.name m.descriptor) <;>
      simp [hrule, Level.joinAll]
  exact Prod.ext hrequest rfl

end RuleSet

section

variable {take : RuleSet → Member → Option Level × RuleSet} {names : Member → List Element}

/-- A walk leaves the rules whose element names none of the members. -/
theorem level?_pending_widenMembers (htakes : RuleSet.TakesNames take names) (pending : RuleSet)
    (members : List Member) (e : Element) :
    (widenMembers take pending members).pending.level? e =
      if ∃ m ∈ members, e ∈ names m then none else pending.level? e := by
  induction members generalizing pending with
  | nil => simp [widenMembers]
  | cons m rest ih =>
      have hstep : (widenMembers take pending (m :: rest)).pending =
          (widenMembers take (pending.without (names m)) rest).pending := by
        simp only [widenMembers, htakes pending m]
      rw [hstep, ih, RuleSet.level?_without]
      by_cases hrest : ∃ m' ∈ rest, e ∈ names m'
      · rw [if_pos hrest, if_pos]
        obtain ⟨m', hm', he⟩ := hrest
        exact ⟨m', List.mem_cons_of_mem m hm', he⟩
      · rw [if_neg hrest]
        simp only [List.exists_mem_cons_iff, hrest, or_false]

/-- The member at a place is widened by its rules as they are left by the members before it. -/
theorem getElem?_members_widenMembers (htakes : RuleSet.TakesNames take names) (pending : RuleSet)
    (members : List Member) (i : Nat) :
    (widenMembers take pending members).members[i]? =
      members[i]?.map fun m => m.widen (Level.joinAll
        ((widenMembers take pending (members.take i)).pending.requestsFor (names m))) := by
  induction members generalizing pending i with
  | nil => simp [widenMembers]
  | cons m rest ih =>
      have hmembers : (widenMembers take pending (m :: rest)).members =
          m.widen (Level.joinAll (pending.requestsFor (names m))) ::
            (widenMembers take (pending.without (names m)) rest).members := by
        simp only [widenMembers, htakes pending m]
      rw [hmembers]
      cases i with
      | zero => rfl
      | succ i =>
          have hpending : (widenMembers take pending ((m :: rest).take (i + 1))).pending =
              (widenMembers take (pending.without (names m)) (rest.take i)).pending := by
            rw [List.take_succ_cons]
            simp only [widenMembers, htakes pending m]
          rw [hpending]
          simpa only [List.getElem?_cons_succ] using ih (pending.without (names m)) i

/-- A walk changes access words only. -/
theorem map_signature_widenMembers (pending : RuleSet) (members : List Member) :
    (widenMembers take pending members).members.map Member.signature =
      members.map Member.signature := by
  induction members generalizing pending with
  | nil => rfl
  | cons m rest ih =>
      simp only [widenMembers, List.map_cons, ih, Member.widen_eq]
      rfl

/-- What a walk leaves of the rules for one member: everything, unless an earlier member is named
by the same elements. -/
theorem requestsFor_pending_widenMembers (htakes : RuleSet.TakesNames take names)
    (pending : RuleSet) (members : List Member) {wanted : List Element}
    (hfresh : ∀ e ∈ wanted, pending.level? e = none ∨ ∀ m ∈ members, e ∉ names m) :
    (widenMembers take pending members).pending.requestsFor wanted =
      pending.requestsFor wanted := by
  apply RuleSet.requestsFor_congr
  intro e he
  rw [level?_pending_widenMembers htakes]
  rcases hfresh e he with hnone | hnot
  · simp [hnone]
  · rw [if_neg]
    rintro ⟨m, hm, hmem⟩
    exact hnot m hm hmem

/-- Nothing is left for a member when one with the same names was walked over. -/
theorem requestsFor_pending_eq_nil (htakes : RuleSet.TakesNames take names) (pending : RuleSet)
    {members : List Member} {m earlier : Member} (hearlier : earlier ∈ members)
    (hnames : names earlier = names m) :
    (widenMembers take pending members).pending.requestsFor (names m) = [] := by
  apply RuleSet.requestsFor_eq_nil_iff.mpr
  intro e he
  rw [level?_pending_widenMembers htakes, if_pos]
  exact ⟨earlier, hearlier, hnames ▸ he⟩

/-- A walk over members that no rule names changes nothing. -/
theorem widenMembers_of_level?_eq_none (htakes : RuleSet.TakesNames take names)
    {pending : RuleSet} {members : List Member}
    (hnone : ∀ m ∈ members, ∀ e ∈ names m, pending.level? e = none) :
    widenMembers take pending members = ⟨members, pending, 0⟩ := by
  induction members with
  | nil => rfl
  | cons m rest ih =>
      obtain ⟨hm, hrest⟩ := List.forall_mem_cons.mp hnone
      have hrequests : pending.requestsFor (names m) = [] := RuleSet.requestsFor_eq_nil_iff.mpr hm
      have hkept : pending.without (names m) = pending := by
        apply RuleSet.ext_level?
        intro e
        rw [RuleSet.level?_without]
        split
        · next he => exact (hm e he).symm
        · rfl
      have htake : take pending m = (none, pending) := by
        rw [htakes, hrequests, hkept]
        rfl
      simp only [widenMembers, htake, ih hrest, Member.widen, if_pos]

end

end AccessWidening
