import AccessWidening.Proofs.Access.Twice
import AccessWidening.Proofs.Pass.Applied
import AccessWidening.Proofs.RuleSet.Requests

/-!
Two rule sets applied one after the other, compared with their merge.

If the pass with the merged rules gives a report, so do the passes in turn. The same classes take
rules, the merged rules request at each place what both sets request there, and the same rules are
unmatched. So the outcomes differ only in how a level that drops `final` meets one that adds it.
-/

namespace AccessWidening

open Pass

namespace RuleSet

theorem joinAll_requestsFor_cons (rules : RuleSet) (e : Element) (names : List Element) :
    Level.joinAll (rules.requestsFor (e :: names)) =
      Option.merge Level.join (rules.level? e) (Level.joinAll (rules.requestsFor names)) := by
  unfold requestsFor
  cases hlevel : rules.level? e with
  | none =>
      rw [List.filterMap_cons_none hlevel]
      cases Level.joinAll (names.filterMap rules.level?) <;> rfl
  | some level =>
      rw [List.filterMap_cons_some hlevel, Level.joinAll]
      cases Level.joinAll (names.filterMap rules.level?) with
      | none => rfl
      | some held => exact congrArg some (held.join_comm level)

/-- The level that merged rules request together is the join of what both sets request. -/
theorem joinAll_requestsFor_merge (a b : RuleSet) (names : List Element) :
    Level.joinAll ((a.merge b).requestsFor names) =
      Option.merge Level.join (Level.joinAll (a.requestsFor names))
        (Level.joinAll (b.requestsFor names)) := by
  induction names with
  | nil => rfl
  | cons e rest ih =>
      simp only [joinAll_requestsFor_cons, level?_merge, ih]
      ac_rfl

theorem mem_elements_merge {a b : RuleSet} {e : Element} :
    e ∈ (a.merge b).elements ↔ e ∈ a.elements ∨ e ∈ b.elements := by
  simp only [mem_elements_iff, level?_merge]
  cases a.level? e <;> cases b.level? e <;> simp

theorem appliedAt_merge (a b : RuleSet) (earlier : List ClassDecl) (decl : ClassDecl)
    (place : Place) :
    (a.merge b).appliedAt earlier decl place =
      Option.merge Level.join (a.appliedAt earlier decl place)
        (b.appliedAt earlier decl place) := by
  unfold appliedAt
  split
  · exact joinAll_requestsFor_merge a b _
  · rfl

variable {rules : RuleSet} {classes others : List ClassDecl} {name : String} {i : Nat}

/-! ## Classes that were rewritten before -/

/-- Classes of the same shapes have first classes of the same shape. -/
theorem exists_firstNamed_of_sameShape {p : ClassDecl → Prop} {decl : ClassDecl}
    (hshapes : List.Forall₂ ClassDecl.SameShape classes others)
    (hfirst : FirstNamed classes name i decl)
    (hp : ∀ other, decl.SameShape other → p other) :
    ∃ j other, FirstNamed others name j other ∧ p other := by
  obtain ⟨other, hshape, hother⟩ :=
    hfirst.exists_of_forall₂ hshapes fun x y hxy => by rw [hxy.1]
  exact ⟨i, other, hother, hp other hshape⟩

theorem sameShape_symm (hshapes : List.Forall₂ ClassDecl.SameShape classes others) :
    List.Forall₂ ClassDecl.SameShape others classes :=
  hshapes.flip.imp fun _ _ => ClassDecl.SameShape.symm

theorem Unhindered.of_sameShape (h : rules.Unhindered classes)
    (hshapes : List.Forall₂ ClassDecl.SameShape classes others) : rules.Unhindered others := by
  intro name i decl hfirst hambiguous
  obtain ⟨j, other, hother, hno⟩ :=
    exists_firstNamed_of_sameShape (p := rules.AmbiguousOn) (sameShape_symm hshapes) hfirst
      fun other hshape => hshape.ambiguousOn_iff.mp hambiguous
  exact h name j other hother hno

theorem Unhindered.of_elements_subset {fewer : RuleSet} (h : rules.Unhindered classes)
    (hsubset : fewer.elements ⊆ rules.elements) : fewer.Unhindered classes := by
  rintro name i decl hfirst ⟨field, hrule, hmany⟩
  exact h name i decl hfirst ⟨field, hsubset hrule, hmany⟩

theorem exists_first_declares_iff (hshapes : List.Forall₂ ClassDecl.SameShape classes others)
    {e : Element} :
    (∃ i decl, FirstNamed classes e.owner i decl ∧ decl.Declares e) ↔
      ∃ i decl, FirstNamed others e.owner i decl ∧ decl.Declares e := by
  constructor
  · rintro ⟨i, decl, hfirst, hdeclares⟩
    exact exists_firstNamed_of_sameShape hshapes hfirst
      fun other hshape => hshape.declares_iff.mp hdeclares
  · rintro ⟨i, decl, hfirst, hdeclares⟩
    exact exists_firstNamed_of_sameShape (sameShape_symm hshapes) hfirst
      fun other hshape => hshape.declares_iff.mp hdeclares

/-- The same levels are applied to classes of the same shapes. -/
theorem appliedAt_of_sameShape (rules : RuleSet) {decl other : ClassDecl}
    (hshape : decl.SameShape other)
    (hshapes : List.Forall₂ ClassDecl.SameShape classes others) (place : Place) :
    rules.appliedAt others other place = rules.appliedAt classes decl place := by
  have hnames : others.map ClassDecl.name = classes.map ClassDecl.name := by
    induction hshapes with
    | nil => rfl
    | cons hfirst _ ih => rw [List.map_cons, List.map_cons, hfirst.1, ih]
  have hearlier : (∀ x ∈ others, x.name ≠ other.name) ↔ ∀ x ∈ classes, x.name ≠ decl.name := by
    rw [← List.forall_mem_map (P := (· ≠ other.name)), hnames, List.forall_mem_map, hshape.1]
  unfold appliedAt
  simp only [hearlier, hshape.isFirst_iff, hshape.namesAt_eq]

end RuleSet

/-- Whether a class came out of two passes in turn as it came out of one pass with both rule sets,
but for marks that the second pass revokes; the levels are those that were applied at each place. -/
structure ClassDecl.AgreeUnlessRevoked (first second : Place → Option Level)
    (before inTurn atOnce : ClassDecl) : Prop where
  shape_inTurn : before.SameShape inTurn
  shape_atOnce : before.SameShape atOnce
  words : ∀ place word, before.access? place = some word → ∃ word₁ word₂,
    inTurn.access? place = some word₁ ∧ atOnce.access? place = some word₂ ∧
      Flags.AgreeUnlessRevoked (first place) (second place) word₁ word₂

namespace RuleSet

/-- Applying two rule sets in turn against applying their merge. If the pass with the merged rules
gives a report, so do both passes in turn. All classes come out the same, in every bit of every word
but `final`, and in that one too unless the levels of the first set drop the mark and those of the
second add it. A rule is unmatched in the merged pass if it is in one of the two. -/
theorem sequence_agrees_with_merge (a b : RuleSet) (classes : List ClassDecl) {report : Report}
    (hmerged : ((a.merge b).transformAll .warn classes).result = .ok report) :
    let atOnce := (a.merge b).transformAll .warn classes
    let first := a.transformAll .warn classes
    let inTurn := b.transformAll .warn first.classes
    ∃ reportA reportB, first.result = .ok reportA ∧ inTurn.result = .ok reportB ∧
      (∀ e, e ∈ report.unmatched.unmatched ↔
        e ∈ reportA.unmatched.unmatched ∨ e ∈ reportB.unmatched.unmatched) ∧
      inTurn.classes.length = classes.length ∧ atOnce.classes.length = classes.length ∧
      ∀ (i : Nat) (before : ClassDecl), classes[i]? = some before → ∃ after₁ after₂,
        inTurn.classes[i]? = some after₁ ∧ atOnce.classes[i]? = some after₂ ∧
        ClassDecl.AgreeUnlessRevoked (a.appliedAt (classes.take i) before)
          (b.appliedAt (classes.take i) before) before after₁ after₂ := by
  intro atOnce first inTurn
  obtain ⟨hclear, rfl⟩ := result_transformAll_warn_iff.mp hmerged
  have hclearA : a.Unhindered classes :=
    hclear.of_elements_subset fun _ he => mem_elements_merge.mpr (.inl he)
  have hshapes : List.Forall₂ ClassDecl.SameShape classes first.classes := hclearA.sameShape_classes
  have hclearB : b.Unhindered first.classes := by
    refine Unhindered.of_sameShape ?_ hshapes
    exact hclear.of_elements_subset fun _ he => mem_elements_merge.mpr (.inr he)
  refine ⟨_, _, result_transformAll_warn_iff.mpr ⟨hclearA, rfl⟩,
    result_transformAll_warn_iff.mpr ⟨hclearB, rfl⟩, ?_, ?_, ?_, ?_⟩
  · intro e
    rw [hclear.mem_unmatched_iff, hclearA.mem_unmatched_iff, hclearB.mem_unmatched_iff,
      mem_elements_merge, exists_first_declares_iff hshapes]
    exact or_and_right
  · exact hclearB.sameShape_classes.length_eq.symm.trans hshapes.length_eq.symm
  · exact hclear.sameShape_classes.length_eq.symm
  · intro i before hbefore
    obtain ⟨between, hbetween, hshape, hwords⟩ := hclearA.exists_class_after hbefore
    obtain ⟨after₁, hafter₁, hshape₁, hwords₁⟩ := hclearB.exists_class_after hbetween
    obtain ⟨after₂, hafter₂, hshape₂, hwords₂⟩ := hclear.exists_class_after hbefore
    refine ⟨after₁, after₂, hafter₁, hafter₂, hshape.trans hshape₁, hshape₂, ?_⟩
    intro place word hword
    have happlied := b.appliedAt_of_sameShape hshape (List.forall₂_take i hshapes) place
    rw [hwords₁, hwords, hwords₂, hword, happlied, appliedAt_merge]
    exact ⟨_, _, rfl, rfl, Flags.agreeUnlessRevoked_widenBy word _ _⟩

/-- A final class that the first set asks to open and the second one to close again, with a rule in
each set that is unmatched. The class is final after the two passes, and not after the merged
one. -/
theorem sequence_agrees_with_merge_of_revoked_mark :
    let a := empty.requestAll [(.classItself "A", ⟨.priv, .dropFinal⟩),
      (.method "A" "m" "()V", ⟨.pub, .unstated⟩), (.field "A" "x" none, ⟨.prot, .unstated⟩)]
    let b := empty.requestAll [(.classItself "A", ⟨.pub, .addFinal⟩),
      (.field "A" "x" (some "I"), ⟨.pub, .unstated⟩), (.classItself "B", ⟨.pub, .unstated⟩)]
    let classes : List ClassDecl := [⟨"A", ⟨0x10⟩, [⟨"x", "I", ⟨2⟩⟩], []⟩]
    let report : Report :=
      ⟨⟨1, 1, 1⟩, .ofList [.method "A" "m" "()V", .classItself "B"]⟩
    ((a.merge b).transformAll .warn classes).result = .ok report ∧
      (∃ reportA reportB, (a.transformAll .warn classes).result = .ok reportA ∧
        (b.transformAll .warn (a.transformAll .warn classes).classes).result = .ok reportB ∧
        ∀ e, e ∈ report.unmatched.unmatched ↔
          e ∈ reportA.unmatched.unmatched ∨ e ∈ reportB.unmatched.unmatched) ∧
      (b.transformAll .warn (a.transformAll .warn classes).classes).classes =
        [⟨"A", ⟨0x11⟩, [⟨"x", "I", ⟨1⟩⟩], []⟩] ∧
      ((a.merge b).transformAll .warn classes).classes =
        [⟨"A", ⟨1⟩, [⟨"x", "I", ⟨1⟩⟩], []⟩] := by
  intro a b classes report
  have hmerged : ((a.merge b).transformAll .warn classes).result = .ok report := by decide
  obtain ⟨reportA, reportB, hA, hB, hunmatched, _⟩ :=
    sequence_agrees_with_merge a b classes hmerged
  exact ⟨hmerged, ⟨reportA, reportB, hA, hB, hunmatched⟩, by decide, by decide⟩

end RuleSet

end AccessWidening
