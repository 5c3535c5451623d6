import AccessWidening.Proofs.Pass.WholePass

/-!
The first classes of their names. Where the rules are ambiguous for none of them, they are the
classes that take the rules, and a whole pass whose visits all succeed is of that kind.
-/

namespace AccessWidening

open Pass

abbrev FirstNamed (classes : List ClassDecl) (name : String) (i : Nat) (decl : ClassDecl) : Prop :=
  FirstAt (·.name = name) classes i decl

namespace RuleSet

/-- Whether the rules are ambiguous for no class that is the first of its name. -/
def Unhindered (rules : RuleSet) (classes : List ClassDecl) : Prop :=
  ∀ name i decl, FirstNamed classes name i decl → ¬ rules.AmbiguousOn decl

variable {rules : RuleSet} {policy : StalePolicy} {classes : List ClassDecl} {decl : ClassDecl}
  {name : String} {i : Nat}

/-- Where every visit succeeds, no first class is ambiguous: its visit would have failed. -/
theorem unhindered_of_succeeds
    (hall : ∀ visit ∈ (start rules policy).visits classes, visit.Succeeds) :
    rules.Unhindered classes := by
  intro name i decl hfirst hambiguous
  have hfree : ¬ rules.Taken (classes.take i) decl.name := by
    rintro ⟨other, hother, hmay⟩
    exact hfirst.not_before other hother (hmay.1.trans hfirst.holds)
  have hfollows := follows_after rules policy (classes.take i)
  obtain ⟨found, _, _, _, htransform⟩ :=
    transform_of_ambiguous ((hfollows.ambiguousOn_iff hfree).mpr hambiguous)
  obtain ⟨changed, hresult⟩ := hall _ (List.mem_of_getElem? (visits_eq_some hfirst.getElem?_eq))
  rw [htransform] at hresult
  cases hresult

namespace Unhindered

theorem taker_iff (h : rules.Unhindered classes) :
    rules.Taker classes name i decl ↔ FirstNamed classes name i decl := by
  have htakes {j : Nat} {first : ClassDecl} (hfirst : FirstNamed classes name j first) :
      rules.Taker classes name j first := by
    refine ⟨hfirst.getElem?_eq, ⟨hfirst.holds, h name j first hfirst⟩, ?_⟩
    intro other hother hmay
    exact hfirst.not_before other hother hmay.1
  refine ⟨fun htaker => ?_, htakes⟩
  obtain ⟨j, first, hfirst⟩ := exists_firstAt (p := (·.name = name))
    ⟨decl, htaker.mem, htaker.holds.1⟩
  obtain ⟨rfl, rfl⟩ := (htakes hfirst).unique htaker
  exact hfirst

/-- The rules for a name are taken by the first class of the name. -/
theorem not_taken_iff (h : rules.Unhindered classes) (name : String) (i : Nat) :
    ¬ rules.Taken (classes.take i) name ↔ ∀ other ∈ classes.take i, other.name ≠ name := by
  constructor
  · intro hfree other hother hname
    obtain ⟨k, hk, hget⟩ := List.mem_take_iff_getElem.mp hother
    have hother? : classes[k]? = some other := List.getElem?_eq_some_iff.mpr ⟨_, hget⟩
    obtain ⟨j, first, hfirst⟩ := exists_firstAt (p := (·.name = name))
      ⟨other, List.mem_of_getElem? hother?, hname⟩
    have hle : j ≤ k := hfirst.le_of_getElem? hother? hname
    have hmem : first ∈ classes.take i := mem_take_of_getElem? hfirst.getElem?_eq (by omega)
    exact hfree ⟨first, hmem, hfirst.holds, h name j first hfirst⟩
  · rintro hnone ⟨other, hother, hmay⟩
    exact hnone other hother hmay.1

end Unhindered

end RuleSet

end AccessWidening
