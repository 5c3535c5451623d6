import AccessWidening.Proofs.Declaration.Widened

/-!
How a class differs before and after its rules were applied.

The walk over the members counts while it widens them. What it counts are the positions at which the
access words of its two lists differ, so the numbers of a bucket can be read off the class.
-/

namespace AccessWidening

/-- The number of positions at which the access words of two member lists differ. -/
def Member.differences (before after : List Member) : Nat :=
  (before.zip after).countP fun pair => pair.2.access ≠ pair.1.access

def ClassDecl.changedMembers (before after : ClassDecl) : Nat :=
  Member.differences before.fields after.fields + Member.differences before.methods after.methods

namespace Member

variable {before after : List Member}

theorem differences_cons (m m' : Member) (before after : List Member) :
    differences (m :: before) (m' :: after) =
      differences before after + if m'.access = m.access then 0 else 1 := by
  unfold differences
  rw [List.zip_cons_cons, List.countP_cons]
  simp only [ne_eq, decide_not, Bool.not_eq_true', decide_eq_false_iff_not, ite_not]

/-- Members of one signature are equal if their access words are. -/
theorem eq_iff_access_eq {m m' : Member} (h : m.signature = m'.signature) :
    m' = m ↔ m'.access = m.access := by
  obtain ⟨hname, hdescriptor⟩ := Prod.mk.inj h
  constructor
  · rintro rfl
    rfl
  · intro haccess
    cases m
    cases m'
    cases hname
    cases hdescriptor
    cases haccess
    rfl

/-- Lists of the same members without a difference are equal. -/
theorem differences_eq_zero_iff (h : before.map signature = after.map signature) :
    differences before after = 0 ↔ after = before := by
  induction before generalizing after with
  | nil =>
      rw [List.map_eq_nil_iff.mp h.symm]
      exact iff_of_true rfl rfl
  | cons m rest ih =>
      cases after with
      | nil => cases h
      | cons m' rest' =>
          obtain ⟨hsignature, hrest⟩ := List.cons.inj h
          rw [differences_cons, Nat.add_eq_zero_iff, ih hrest, List.cons.injEq, and_comm,
            eq_iff_access_eq hsignature]
          simp

end Member

theorem ClassDecl.changedMembers_self (decl : ClassDecl) : decl.changedMembers decl = 0 := by
  have hmembers (members : List Member) : Member.differences members members = 0 :=
    (Member.differences_eq_zero_iff rfl).mpr rfl
  unfold changedMembers
  rw [hmembers, hmembers]

/-- A walk counts the positions at which it changes the access word. -/
theorem changed_widenMembers {take : RuleSet → Member → Option Level × RuleSet} (pending : RuleSet)
    (members : List Member) :
    (widenMembers take pending members).changed =
      Member.differences members (widenMembers take pending members).members := by
  induction members generalizing pending with
  | nil => rfl
  | cons m rest ih =>
      have hsignature (request : Option Level) : m.signature = (m.widen request).signature := by
        rw [Member.widen_eq]
        rfl
      simp only [widenMembers, ih, Member.differences_cons,
        Member.eq_iff_access_eq (hsignature _)]

/-- Classes of one shape are equal if their own words are and no member differs. -/
theorem ClassDecl.SameShape.ne_iff {a b : ClassDecl} (h : a.SameShape b) :
    b ≠ a ↔ b.access ≠ a.access ∨ 0 < a.changedMembers b := by
  obtain ⟨hname, hfields, hmethods⟩ := h
  have hmembers : 0 < a.changedMembers b ↔ ¬ (b.fields = a.fields ∧ b.methods = a.methods) := by
    rw [← Member.differences_eq_zero_iff hfields, ← Member.differences_eq_zero_iff hmethods,
      ← Nat.add_eq_zero_iff]
    exact Nat.pos_iff_ne_zero
  rw [hmembers, ← not_and_or, not_iff_not]
  cases a
  cases b
  cases hname
  simp

theorem Bucket.membersChanged_apply (bucket : Bucket) (decl : ClassDecl) :
    (bucket.apply decl).membersChanged = decl.changedMembers (bucket.apply decl).decl := by
  unfold Bucket.apply ClassDecl.changedMembers
  simp only [Bucket.walkMethods_eq]
  simp only [Bucket.walkFields_eq, changed_widenMembers]

end AccessWidening
