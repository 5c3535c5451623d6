import AccessWidening.Proofs.Declaration.Satisfied
import AccessWidening.Proofs.Pass.FirstNamed

/-!
What a clean report means. The rules of an owner are satisfied in the first class of its name, and
the other way round: rules that have their targets there, in classes they are not ambiguous for,
make the report clean.
-/

namespace AccessWidening

open Pass

def HasTarget (classes : List ClassDecl) (e : Element) : Prop :=
  ∃ i decl place, FirstNamed classes e.owner i decl ∧ decl.Target e place

/-- Whether a whole pass comes to the class at a place: no visit before it fails. -/
def Pass.Reaches (pass : Pass) (classes : List ClassDecl) (i : Nat) : Prop :=
  ∀ visit ∈ (pass.visits classes).take i, visit.Succeeds

/-- Whether the pending rules are ambiguous for no class that is reached, at its visit. -/
def Pass.NeverAmbiguous (pass : Pass) (classes : List ClassDecl) : Prop :=
  ∀ i decl, classes[i]? = some decl → pass.Reaches classes i →
    ¬ (pass.after (classes.take i)).pending.AmbiguousOn decl

/-- Whether a rule is satisfied after a whole pass: there is a first class of its owner's name, it
has a target for the rule, and the access word there afterwards is as the rule requests. -/
def Transformation.Satisfies (outcome : Transformation) (rules : RuleSet)
    (classes : List ClassDecl) (e : Element) (level : Level) : Prop :=
  ∃ i before after place word, FirstNamed classes e.owner i before ∧
    outcome.classes[i]? = some after ∧ before.Target e place ∧
    after.access? place = some word ∧ rules.SatisfiedAt before place word e level

namespace Pass

variable {rules : RuleSet} {policy : StalePolicy} {calls classes : List ClassDecl} {pass : Pass}
  {decl : ClassDecl} {name : String} {i : Nat}

/-- The visit of the class that takes the rules widens every target of theirs as they request. -/
theorem satisfiedAt_of_taker (policy : StalePolicy) {e : Element} {level : Level} {place : Place}
    (hlevel : rules.level? e = some level) (htaker : rules.Taker classes e.owner i decl)
    (htarget : decl.Target e place) :
    ∃ visit word, ((start rules policy).visits classes)[i]? = some visit ∧
      visit.decl.access? place = some word ∧ rules.SatisfiedAt decl place word e level := by
  obtain ⟨hname, hclear⟩ := htaker.holds
  have hrule : e ∈ rules.elements := RuleSet.mem_elements_iff.mpr ⟨level, hlevel⟩
  have hfree := RuleSet.not_taken_take_of_taker htaker
  rw [← hname] at hfree
  obtain ⟨before, hbefore⟩ := htarget.access?_eq
  refine ⟨_, before.widenBy (Level.joinAll (rules.requestsFor (decl.namesAt place))),
    visits_eq_some htaker.getElem?_eq, ?_,
    ClassDecl.satisfiedAt_widenBy before htarget.mem_namesAt hlevel⟩
  rcases (follows_after rules policy (classes.take i)).transform_cases decl with ⟨hnone, _⟩ |
    ⟨_, _, _, _, _, hambiguous, _⟩ | ⟨_, bucket, hbucket, _, htransform⟩
  · exact absurd (hnone e hrule hname.symm) hfree
  · exact absurd hambiguous hclear
  · rw [htransform, decl_consume, access?_apply_of_isFirst hbucket hclear htarget.isFirst,
      hbefore]
    rfl

/-- A clean whole pass satisfies every rule. -/
theorem satisfies_of_clean (hclean : (rules.transformAll policy classes).Clean) {e : Element}
    {level : Level} (hlevel : rules.level? e = some level) :
    (rules.transformAll policy classes).Satisfies rules classes e level := by
  have hrule : e ∈ rules.elements := RuleSet.mem_elements_iff.mpr ⟨level, hlevel⟩
  obtain ⟨hall, hmatched⟩ := RuleSet.clean_transformAll_iff.mp hclean
  obtain ⟨i, decl, htaker, hdeclares⟩ := hmatched e hrule
  obtain ⟨place, htarget⟩ :=
    ClassDecl.exists_target_of_declares hrule htaker.holds.2 hdeclares
  obtain ⟨visit, word, hvisit, hword, hsatisfied⟩ :=
    satisfiedAt_of_taker policy hlevel htaker htarget
  have hfirst := (RuleSet.unhindered_of_succeeds hall).taker_iff.mp htaker
  refine ⟨i, decl, visit.decl, place, word, hfirst, ?_, htarget, hword, hsatisfied⟩
  unfold RuleSet.transformAll
  rw [classes_transformAll hall, List.getElem?_map, hvisit]
  rfl

theorem reaches_succ_iff (hdecl : classes[i]? = some decl) :
    pass.Reaches classes (i + 1) ↔
      pass.Reaches classes i ∧ ((pass.after (classes.take i)).transform decl).Succeeds := by
  unfold Reaches
  rw [List.take_add_one, visits_eq_some hdecl]
  simp only [Option.toList_some, List.forall_mem_append, List.forall_mem_singleton]

theorem Reaches.mono {j : Nat} (h : pass.Reaches classes i) (hle : j ≤ i) :
    pass.Reaches classes j := by
  intro visit hvisit
  exact h visit (List.take_subset_take_left _ hle hvisit)

/-- If a class is unambiguous at its visit and declares the rules that its visit takes, the visit
succeeds. -/
theorem Follows.succeeds (h : Follows rules policy calls pass)
    (hclear : ¬ pass.pending.AmbiguousOn decl)
    (hdeclares : ∀ e ∈ rules.elements, ¬ rules.Taken calls e.owner →
      rules.MayTake e.owner decl → decl.Declares e) : (pass.transform decl).Succeeds := by
  rcases h.transform_cases decl with ⟨_, htransform⟩ |
    ⟨hfree, _, _, _, _, hambiguous, _⟩ | ⟨hfree, bucket, hbucket, hunambiguous, htransform⟩
  · rw [htransform]
    exact ⟨false, rfl⟩
  · exact absurd ((h.ambiguousOn_iff hfree).mpr hambiguous) hclear
  · rw [htransform]
    cases hresult : (pass.consume bucket decl).result with
    | ok changed => exact ⟨changed, hresult⟩
    | error fault =>
        obtain ⟨_, hleft, _⟩ := (result_consume_eq_error_iff pass bucket decl).mp hresult
        obtain ⟨e, he⟩ := List.exists_mem_of_ne_nil _ hleft
        obtain ⟨hrule, ⟨hfree', hmay⟩, hnot⟩ :=
          (mem_leftover_iff hbucket hunambiguous hfree).mp he
        exact absurd (hdeclares e hrule hfree' hmay) hnot

/-- The first class of a name takes its rules, if it is reached and unambiguous at its visit. -/
theorem taker_of_firstNamed (hnever : (start rules policy).NeverAmbiguous classes)
    (hfirst : FirstNamed classes name i decl) (hreach : (start rules policy).Reaches classes i) :
    rules.Taker classes name i decl := by
  have hname : decl.name = name := hfirst.holds
  have hnone : ∀ earlier ∈ classes.take i, ¬ rules.MayTake name earlier := by
    intro earlier hearlier hmay
    exact hfirst.not_before earlier hearlier hmay.1
  have hfree : ¬ rules.Taken (classes.take i) decl.name := by
    rintro ⟨earlier, hearlier, hmay⟩
    exact hnone earlier hearlier (hname ▸ hmay)
  have hfollows := follows_after rules policy (classes.take i)
  have hclear : ¬ rules.AmbiguousOn decl := by
    rw [← hfollows.ambiguousOn_iff hfree]
    exact hnever i decl hfirst.getElem?_eq hreach
  exact ⟨hfirst.getElem?_eq, ⟨hname, hclear⟩, hnone⟩

/-- With targets for all rules and no ambiguity, every visit succeeds. -/
theorem reaches_of_targets (hnever : (start rules policy).NeverAmbiguous classes)
    (htargets : ∀ e ∈ rules.elements, HasTarget classes e) (i : Nat) :
    (start rules policy).Reaches classes i := by
  induction i with
  | zero => simp [Reaches]
  | succ i ih =>
      cases hdecl : classes[i]? with
      | none =>
          have hvisit : ((start rules policy).visits classes)[i]? = none := by
            rw [getElem?_visits, hdecl]
            rfl
          unfold Reaches
          rw [List.take_add_one, hvisit, Option.toList_none, List.append_nil]
          exact ih
      | some decl =>
          refine (reaches_succ_iff hdecl).mpr ⟨ih, ?_⟩
          apply (follows_after rules policy (classes.take i)).succeeds (hnever i decl hdecl ih)
          intro e he hfree hmay
          -- The first class of the name is this one: an earlier one would have taken the rule.
          obtain ⟨k, first, place, hfirst, htarget⟩ := htargets e he
          have hle : k ≤ i := hfirst.le_of_getElem? hdecl hmay.1
          rcases Nat.lt_or_eq_of_le hle with hlt | rfl
          · have htaker := taker_of_firstNamed hnever hfirst (ih.mono hle)
            have hmem : first ∈ classes.take i := mem_take_of_getElem? hfirst.getElem?_eq hlt
            exact absurd ⟨first, hmem, htaker.holds⟩ hfree
          · obtain rfl := Option.some.inj (hdecl.symm.trans hfirst.getElem?_eq)
            exact htarget.declares

/-- With targets for all rules and no ambiguity, a whole pass is clean. -/
theorem clean_of_targets (hnever : (start rules policy).NeverAmbiguous classes)
    (htargets : ∀ e ∈ rules.elements, HasTarget classes e) :
    (rules.transformAll policy classes).Clean := by
  have hreach := reaches_of_targets hnever htargets
  apply RuleSet.clean_transformAll_iff.mpr
  constructor
  · have hall := hreach ((start rules policy).visits classes).length
    unfold Reaches at hall
    rw [List.take_length] at hall
    exact hall
  · intro e he
    obtain ⟨i, decl, place, hfirst, htarget⟩ := htargets e he
    exact ⟨i, decl, taker_of_firstNamed hnever hfirst (hreach i), htarget.declares⟩

end Pass

namespace RuleSet

/-- A clean report means that every rule is satisfied, in the first class of its owner's name. And
if every rule has a target there, and no class is ambiguous when it is visited, the report is
clean. -/
theorem clean_report_of_rules (rules : RuleSet) (policy : StalePolicy)
    (classes : List ClassDecl) :
    let outcome := rules.transformAll policy classes
    (outcome.Clean → ∀ entry ∈ rules.entries,
      outcome.Satisfies rules classes entry.1 entry.2) ∧
    ((∀ entry ∈ rules.entries, HasTarget classes entry.1) →
      (start rules policy).NeverAmbiguous classes → outcome.Clean) := by
  intro outcome
  constructor
  · rintro hclean ⟨e, level⟩ hentry
    exact satisfies_of_clean hclean (level?_eq_some_iff.mpr hentry)
  · intro htargets hnever
    apply clean_of_targets hnever
    intro e he
    obtain ⟨level, hlevel⟩ := mem_elements_iff.mp he
    exact htargets (e, level) (level?_eq_some_iff.mp hlevel)

/-- Two rules for one field that disagree on `final`. The field is the target of both and the one
field of its name, so the report is clean, and the rule that adds the mark is satisfied although the
field loses it. -/
theorem clean_report_of_opposed_rules :
    let byName : Element × Level := (.field "A" "x" none, ⟨.pub, .addFinal⟩)
    let described : Element × Level := (.field "A" "x" (some "I"), ⟨.prot, .dropFinal⟩)
    let rules := empty.requestAll [byName, described]
    let classes : List ClassDecl := [⟨"A", ⟨0⟩, [⟨"x", "I", ⟨0x12⟩⟩], []⟩]
    let outcome := rules.transformAll .failFast classes
    (∀ entry ∈ rules.entries, HasTarget classes entry.1) ∧
      (start rules .failFast).NeverAmbiguous classes ∧ outcome.Clean ∧
      outcome.Satisfies rules classes byName.1 byName.2 := by
  intro byName described rules classes outcome
  have hfirst : FirstNamed classes "A" 0 ⟨"A", ⟨0⟩, [⟨"x", "I", ⟨0x12⟩⟩], []⟩ :=
    ⟨rfl, rfl, by simp⟩
  have htargets : ∀ entry ∈ rules.entries, HasTarget classes entry.1 := by
    have hentries : rules.entries = [byName, described] := by decide
    rw [hentries, List.forall_mem_cons, List.forall_mem_singleton]
    constructor
    · refine ⟨0, _, .field 0, hfirst, rfl, _, rfl, rfl, ?_⟩
      intro j other hother _
      have hlt : j < 1 := (List.getElem?_eq_some_iff.mp hother).1
      exact Nat.lt_one_iff.mp hlt
    · exact ⟨0, _, .field 0, hfirst, rfl, _, rfl, rfl, by simp⟩
  have hnever : (start rules .failFast).NeverAmbiguous classes := by
    rintro i decl hdecl _ ⟨name, _, hseveral⟩
    have hmem : decl ∈ classes := List.mem_of_getElem? hdecl
    obtain rfl := List.mem_singleton.mp hmem
    rw [ClassDecl.fieldDescriptors, List.length_map] at hseveral
    exact absurd hseveral (Nat.not_lt.mpr (List.length_filter_le _ _))
  obtain ⟨hsatisfies, hclean⟩ := clean_report_of_rules rules .failFast classes
  have hreport := hclean htargets hnever
  exact ⟨htargets, hnever, hreport, hsatisfies hreport byName (by decide)⟩

end RuleSet

end AccessWidening
