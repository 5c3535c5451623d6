import AccessWidening.Proofs.Rule.LineByLine
import AccessWidening.Proofs.Rule.Requirement

/-!
A line that is refused is refused for the first requirement that it misses, in the order in which a
line is read, and a line that misses none is accepted. A source is refused for the first of its
lines that misses one.

Reading is followed from one place of a line to the next. What the requirements say of a place is
what the reader of that place does, since there is only one such place in a line.
-/

namespace AccessWidening.Grammar

open Syntax

def FailsWith {α : Type} (read : Except Defect α) (detail : String) : Prop :=
  ∃ defect, read = .error defect ∧ defect.detail = detail

variable {cs target path rest left : List Char} {name : Option (List Char)}
  {requirement : Requirement} {requirements : List Requirement} {detail : String}

theorem failsWith_error_iff {α : Type} {defect : Defect} :
    FailsWith (.error defect : Except Defect α) detail ↔ detail = defect.detail := by
  constructor
  · rintro ⟨_, h, rfl⟩
    rw [Except.error.inj h]
  · rintro rfl
    exact ⟨defect, rfl, rfl⟩

theorem not_failsWith_ok {α : Type} {a : α} : ¬ FailsWith (.ok a : Except Defect α) detail := by
  rintro ⟨_, h, -⟩
  cases h

section OneWording

variable {p : Prop} {defect : Defect}
  (hmisses : ∀ detail, Misses cs requirement detail ↔ p ∧ detail = defect.detail)
include hmisses

/-- A defect is reported if its requirement is missed and is the next one. -/
theorem failsWith_iff_missesFirst {α : Type} (hp : p) :
    FailsWith (.error defect : Except Defect α) detail ↔
      MissesFirst cs (requirement :: requirements) detail := by
  rw [missesFirst_of_misses ⟨_, (hmisses _).mpr ⟨hp, rfl⟩⟩, hmisses, and_iff_right hp]
  exact failsWith_error_iff

theorem missesFirst_of_met (hp : ¬ p) :
    MissesFirst cs (requirement :: requirements) detail ↔ MissesFirst cs requirements detail :=
  missesFirst_of_not_misses fun _ h => hp ((hmisses _).mp h).1

end OneWording

/-! ## Behind the name of a target -/

theorem leftOver_iff : LeftOver rest left ↔ ∃ found, readDescriptor rest = .ok (found, left) := by
  rw [LeftOver, ← readDescriptor_eq_none_iff, ← exists_readDescriptor_eq_some_iff]
  constructor
  · rintro (hnone | ⟨found, hsome⟩)
    · exact ⟨none, hnone⟩
    · exact ⟨some found, hsome⟩
  · rintro ⟨found, hread⟩
    cases found with
    | none => exact .inl hread
    | some found => exact .inr ⟨found, hread⟩

/-- The element that is meant by a path, by a member name if there is one, and by a descriptor if
there is one. -/
def elementOf (path : List Char) :
    Option (List Char) → Option (DescriptorKind × List Char) → Except Defect Element
  | some name, found => .ok (memberElement path name found)
  | none, none => .ok (.classItself (.ofList path))
  | none, some descriptor =>
    match splitAtLastSlash path with
    | some (owner, name) => .ok (memberElement owner name (some descriptor))
    | none => .error .ownerBeforeDescriptor

/-- Only a path that is too short to be split means nothing. -/
theorem elementOf_eq_error_iff {found : Option (DescriptorKind × List Char)} {defect : Defect} :
    elementOf path name found = .error defect ↔
      (name = none ∧ found ≠ none ∧ '/' ∉ path) ∧ defect = .ownerBeforeDescriptor := by
  cases name with
  | some name => exact iff_of_false nofun nofun
  | none =>
      cases found with
      | none => exact iff_of_false nofun fun h => h.1.2.1 rfl
      | some descriptor =>
          rw [← splitAtLastSlash_eq_none_iff, elementOf]
          cases splitAtLastSlash path with
          | none => simp [eq_comm]
          | some parts => exact iff_of_false nofun nofun

section Named

variable (hnamed : ∀ p n r, NamedBy cs p n r ↔ p = path ∧ n = name ∧ r = rest)
include hnamed

theorem misses_descriptor_iff :
    Misses cs .descriptor detail ↔ FailsWith (readDescriptor rest) detail := by
  simp only [Misses, hnamed, FailsWith, readDescriptor_eq_error_iff, ← namesBadClass_iff]
  constructor
  · rintro ⟨_, _, _, behind, ⟨rfl, rfl, rfl⟩, hlacks, hdetail⟩
    refine ⟨_, ⟨behind, hlacks, rfl⟩, ?_⟩
    rcases hdetail with ⟨hbad, rfl⟩ | ⟨hgood, rfl⟩
    · rw [if_pos hbad]
      rfl
    · rw [if_neg hgood]
      rfl
  · rintro ⟨_, ⟨behind, hlacks, rfl⟩, rfl⟩
    refine ⟨path, name, rest, behind, ⟨rfl, rfl, rfl⟩, hlacks, ?_⟩
    split
    · next hbad => exact .inl ⟨hbad, rfl⟩
    · next hgood => exact .inr ⟨hgood, rfl⟩

theorem misses_ownerBeforeDescriptor_iff :
    Misses cs .ownerBeforeDescriptor detail ↔
      (name = none ∧ (∃ found left, readDescriptor rest = .ok (some found, left)) ∧ '/' ∉ path) ∧
        detail = Defect.ownerBeforeDescriptor.detail := by
  simp only [Misses, hnamed, ← exists_readDescriptor_eq_some_iff]
  refine and_congr_left fun _ => ?_
  constructor
  · rintro ⟨_, _, left, ⟨rfl, rfl, rfl⟩, ⟨found, hread⟩, hslash⟩
    exact ⟨rfl, ⟨found, left, hread⟩, hslash⟩
  · rintro ⟨rfl, ⟨found, left, hread⟩, hslash⟩
    exact ⟨path, rest, left, ⟨rfl, rfl, rfl⟩, ⟨found, hread⟩, hslash⟩

theorem misses_endOfLine_iff :
    Misses cs .endOfLine detail ↔
      (∃ found left, readDescriptor rest = .ok (found, left) ∧ left ≠ []) ∧
        detail = Defect.endOfLine.detail := by
  simp only [Misses, hnamed, leftOver_iff]
  refine and_congr_left fun _ => ?_
  constructor
  · rintro ⟨_, _, _, left, ⟨rfl, rfl, rfl⟩, ⟨found, hread⟩, hne⟩
    exact ⟨found, left, hread, hne⟩
  · rintro ⟨found, left, hread, hne⟩
    exact ⟨path, name, rest, left, ⟨rfl, rfl, rfl⟩, ⟨found, hread⟩, hne⟩

/-- Behind the name, a descriptor is required first, then an owner before it, and then the end of
the line. -/
theorem failsWith_named_iff (level : Level) :
    FailsWith (do
      let (found, left) ← readDescriptor rest
      let e ← elementOf path name found
      if left.isEmpty then return (level, e) else throw .endOfLine) detail ↔
    MissesFirst cs [.descriptor, .ownerBeforeDescriptor, .endOfLine] detail := by
  -- There are two wordings for a missing descriptor, so it is not one of the defects of one wording.
  cases hread : readDescriptor rest with
  | error defect =>
      have hmisses : Misses cs .descriptor defect.detail :=
        (misses_descriptor_iff hnamed).mpr ⟨defect, hread, rfl⟩
      rw [missesFirst_of_misses ⟨_, hmisses⟩, misses_descriptor_iff hnamed, hread,
        failsWith_error_iff]
      exact failsWith_error_iff
  | ok reading =>
      obtain ⟨found, left⟩ := reading
      have hdescriptor (wording : String) : ¬ Misses cs .descriptor wording := by
        rw [misses_descriptor_iff hnamed, hread]
        exact not_failsWith_ok
      rw [missesFirst_of_not_misses hdescriptor]
      cases helement : elementOf path name found with
      | error defect =>
          obtain ⟨⟨hname, hfound, hslash⟩, rfl⟩ := elementOf_eq_error_iff.mp helement
          obtain ⟨descriptor, rfl⟩ := Option.ne_none_iff_exists'.mp hfound
          simp only [bind, Except.bind, helement]
          exact failsWith_iff_missesFirst (fun _ => misses_ownerBeforeDescriptor_iff hnamed)
            ⟨hname, ⟨descriptor, left, hread⟩, hslash⟩
      | ok e =>
          have howner : ¬ (name = none ∧
              (∃ found left, readDescriptor rest = .ok (some found, left)) ∧ '/' ∉ path) := by
            rintro ⟨hname, ⟨descriptor, _, hsome⟩, hslash⟩
            obtain ⟨rfl, -⟩ := Prod.mk.inj (Except.ok.inj (hread.symm.trans hsome))
            have herror := elementOf_eq_error_iff.mpr
              ⟨⟨hname, Option.some_ne_none descriptor, hslash⟩, rfl⟩
            cases helement.symm.trans herror
          rw [missesFirst_of_met (fun _ => misses_ownerBeforeDescriptor_iff hnamed) howner]
          simp only [bind, Except.bind, helement]
          cases left with
          | nil =>
              rw [missesFirst_singleton, misses_endOfLine_iff hnamed]
              refine iff_of_false not_failsWith_ok ?_
              rintro ⟨⟨_, _, hleft, hne⟩, -⟩
              obtain ⟨-, rfl⟩ := Prod.mk.inj (Except.ok.inj (hread.symm.trans hleft))
              exact hne rfl
          | cons c left =>
              exact failsWith_iff_missesFirst (fun _ => misses_endOfLine_iff hnamed)
                ⟨found, c :: left, hread, List.cons_ne_nil _ _⟩

end Named

/-! ## From the target on -/

theorem longestRun_iff_of_scanPath (hscan : scanPath target = some (path, rest)) {p r : List Char} :
    LongestRun isPathChar target p r ↔ p = path ∧ r = rest := by
  have hrun := (scanPath_eq_some_iff.mp hscan).1
  constructor
  · intro h
    exact h.unique hrun
  · rintro ⟨rfl, rfl⟩
    exact hrun

/-- A target is read in two steps, its name and what is behind it. -/
theorem readTarget_of_undotted (hscan : scanPath target = some (path, rest))
    (hundotted : rest.head? ≠ some '.') :
    readTarget target = do
      let (found, left) ← readDescriptor rest
      let e ← elementOf path none found
      return (e, left) := by
  rw [readTarget, hscan]
  split
  · next hnone => cases hnone
  · next heq =>
    obtain ⟨rfl, rfl⟩ := Prod.mk.inj (Option.some.inj heq)
    exact absurd rfl hundotted
  · next heq =>
    obtain ⟨rfl, rfl⟩ := Prod.mk.inj (Option.some.inj heq)
    cases readDescriptor rest with
    | error defect => rfl
    | ok reading =>
        obtain ⟨found, left⟩ := reading
        cases found with
        | none => rfl
        | some descriptor =>
            simp only [elementOf, bind, Except.bind]
            cases splitAtLastSlash path with
            | none => rfl
            | some parts => rfl

theorem readTarget_of_dotted {after name : List Char}
    (hscan : scanPath target = some (path, '.' :: after))
    (hname : scanName after = some (name, rest)) :
    readTarget target = do
      let (found, left) ← readDescriptor rest
      let e ← elementOf path (some name) found
      return (e, left) := by
  simp only [readTarget, hscan, hname]
  rfl

section Target

variable (htarget : ∀ t, TargetAt cs t ↔ t = target)
include htarget

theorem misses_className_iff :
    Misses cs .className detail ↔ scanPath target = none ∧ detail = Defect.className.detail := by
  simp only [Misses, htarget, scanPath_eq_none_iff]
  refine and_congr_left fun _ => ?_
  constructor
  · rintro ⟨_, path, rest, rfl, hrun, hbroken⟩
    exact ⟨path, rest, hrun, hbroken⟩
  · rintro ⟨path, rest, hrun, hbroken⟩
    exact ⟨target, path, rest, rfl, hrun, hbroken⟩

theorem misses_memberName_iff (hscan : scanPath target = some (path, rest)) :
    Misses cs .memberName detail ↔
      (∃ after, rest = '.' :: after ∧ scanName after = none) ∧
        detail = Defect.memberName.detail := by
  simp only [Misses, htarget, scanName_eq_none_iff]
  refine and_congr_left fun _ => ?_
  constructor
  · rintro ⟨_, _, after, further, rfl, hrun, hempty⟩
    obtain ⟨-, hrest⟩ := (longestRun_iff_of_scanPath hscan).mp hrun
    exact ⟨after, hrest.symm, further, hempty⟩
  · rintro ⟨after, rfl, further, hempty⟩
    exact ⟨target, path, after, further, rfl,
      (longestRun_iff_of_scanPath hscan).mpr ⟨rfl, rfl⟩, hempty⟩

theorem namedBy_iff_of_undotted (hscan : scanPath target = some (path, rest))
    (hundotted : rest.head? ≠ some '.') (p : List Char) (n : Option (List Char)) (r : List Char) :
    NamedBy cs p n r ↔ p = path ∧ n = none ∧ r = rest := by
  constructor
  · rintro (⟨begins, run, -⟩ | ⟨begins, run, -⟩)
    · obtain rfl := (htarget _).mp begins
      obtain ⟨rfl, rfl⟩ := (longestRun_iff_of_scanPath hscan).mp run
      exact ⟨rfl, rfl, rfl⟩
    · obtain rfl := (htarget _).mp begins
      obtain ⟨-, rfl⟩ := (longestRun_iff_of_scanPath hscan).mp run
      exact absurd rfl hundotted
  · rintro ⟨rfl, rfl, rfl⟩
    exact .path ((htarget _).mpr rfl) ((longestRun_iff_of_scanPath hscan).mpr ⟨rfl, rfl⟩) hundotted

theorem namedBy_iff_of_dotted {after name : List Char}
    (hscan : scanPath target = some (path, '.' :: after))
    (hname : scanName after = some (name, rest)) (p : List Char) (n : Option (List Char))
    (r : List Char) : NamedBy cs p n r ↔ p = path ∧ n = some name ∧ r = rest := by
  have hrun := (scanName_eq_some_iff.mp hname).1
  constructor
  · rintro (⟨begins, run, undotted⟩ | ⟨begins, run, further⟩)
    · obtain rfl := (htarget _).mp begins
      obtain ⟨-, rfl⟩ := (longestRun_iff_of_scanPath hscan).mp run
      exact absurd rfl undotted
    · obtain rfl := (htarget _).mp begins
      obtain ⟨rfl, hafter⟩ := (longestRun_iff_of_scanPath hscan).mp run
      obtain rfl := List.tail_eq_of_cons_eq hafter
      obtain ⟨rfl, rfl⟩ := further.unique hrun
      exact ⟨rfl, rfl, rfl⟩
  · rintro ⟨rfl, rfl, rfl⟩
    exact .member ((htarget _).mpr rfl) ((longestRun_iff_of_scanPath hscan).mpr ⟨rfl, rfl⟩) hrun

/-- From the target on, a class path is required first, then a member name behind a dot, and then
what is required behind a name. -/
theorem failsWith_target_iff (level : Level) :
    FailsWith (do
      let (e, left) ← readTarget target
      if left.isEmpty then return (level, e) else throw .endOfLine) detail ↔
    MissesFirst cs [.className, .memberName, .descriptor, .ownerBeforeDescriptor, .endOfLine]
      detail := by
  cases hscan : scanPath target with
  | none =>
      simp only [readTarget, hscan]
      exact failsWith_iff_missesFirst (fun _ => misses_className_iff htarget) hscan
  | some scanned =>
      obtain ⟨path, rest⟩ := scanned
      have hclass : scanPath target ≠ none := by
        rw [hscan]
        exact Option.some_ne_none _
      rw [missesFirst_of_met (fun _ => misses_className_iff htarget) hclass]
      -- The dot decides what the name is; behind the name both kinds of target go on alike.
      by_cases hdotted : rest.head? = some '.'
      · obtain ⟨after, rfl⟩ := List.head?_eq_some_iff.mp hdotted
        cases hname : scanName after with
        | none =>
            simp only [readTarget, hscan, hname]
            exact failsWith_iff_missesFirst (fun _ => misses_memberName_iff htarget hscan)
              ⟨after, rfl, hname⟩
        | some named =>
            obtain ⟨name, behind⟩ := named
            have hmember : ¬ ∃ other, '.' :: after = '.' :: other ∧ scanName other = none := by
              rintro ⟨_, heq, hnone⟩
              obtain rfl := List.tail_eq_of_cons_eq heq
              cases hname.symm.trans hnone
            rw [missesFirst_of_met (fun _ => misses_memberName_iff htarget hscan) hmember,
              readTarget_of_dotted hscan hname,
              ← failsWith_named_iff (namedBy_iff_of_dotted htarget hscan hname) level]
            simp only [bind_assoc, pure_bind]
      · have hmember : ¬ ∃ after, rest = '.' :: after ∧ scanName after = none := by
          rintro ⟨_, rfl, -⟩
          exact hdotted rfl
        rw [missesFirst_of_met (fun _ => misses_memberName_iff htarget hscan) hmember,
          readTarget_of_undotted hscan hdotted,
          ← failsWith_named_iff (namedBy_iff_of_undotted htarget hscan hdotted) level]
        simp only [bind_assoc, pure_bind]

end Target

/-! ## The whole line -/

theorem failsWith_readRule_iff (cs : List Char) (detail : String) :
    FailsWith (readRule cs) detail ↔ MissesFirst cs Requirement.all detail := by
  have haccess (wording : String) : Misses cs .accessWord wording ↔
      (∀ v : Visibility, ¬ v.word.toList <+: cs) ∧ wording = Defect.accessWord.detail := Iff.rfl
  have hblank (wording : String) : Misses cs .blankAfterAccess wording ↔
      (∃ after, FollowsToken cs after ∧ Stops isSeparator after) ∧
        wording = Defect.blankAfterAccess.detail := Iff.rfl
  rw [Requirement.all, readRule]
  cases hlevel : readLevel cs with
  | error defect =>
      obtain ⟨rfl, hwords⟩ := readLevel_eq_error_iff.mp hlevel
      exact failsWith_iff_missesFirst haccess hwords
  | ok leveled =>
      obtain ⟨level, after⟩ := leveled
      have hwords : ¬ ∀ v : Visibility, ¬ v.word.toList <+: cs := by
        intro hwords
        cases hlevel.symm.trans (readLevel_eq_error_iff.mpr ⟨rfl, hwords⟩)
      -- From here on, the only place behind an access token is where the reader stopped.
      have htoken (t : List Char) : FollowsToken cs t ↔ t = after := by
        rw [followsToken_iff, hlevel]
        simp [eq_comm]
      rw [missesFirst_of_met haccess hwords]
      cases hseparators : readSeparators after with
      | error defect =>
          obtain ⟨rfl, hstops⟩ := readSeparators_eq_error_iff.mp hseparators
          simp only [bind, Except.bind, hseparators]
          exact failsWith_iff_missesFirst hblank ⟨after, (htoken after).mpr rfl, hstops⟩
      | ok target =>
          have hblanks : ¬ ∃ after, FollowsToken cs after ∧ Stops isSeparator after := by
            rintro ⟨t, ht, hstops⟩
            obtain rfl := (htoken t).mp ht
            cases hseparators.symm.trans (readSeparators_eq_error_iff.mpr ⟨rfl, hstops⟩)
          have htarget (t : List Char) : TargetAt cs t ↔ t = target := by
            simp only [TargetAt, htoken, exists_eq_left, followsBlanks_iff, hseparators,
              Except.ok.injEq]
            exact eq_comm
          rw [missesFirst_of_met hblank hblanks, ← failsWith_target_iff htarget level]
          simp only [bind, Except.bind, hseparators]

/-- A line that misses nothing is accepted. -/
theorem exists_readRule_eq_ok_iff (cs : List Char) :
    (∃ rule, readRule cs = .ok rule) ↔ ∀ requirement detail, ¬ Misses cs requirement detail := by
  constructor
  · rintro ⟨rule, hread⟩ requirement detail hmisses
    obtain ⟨i, first, hfirst⟩ := exists_firstAt
      (p := fun requirement => ∃ detail, Misses cs requirement detail)
      ⟨requirement, requirement.mem_all, detail, hmisses⟩
    obtain ⟨wording, hwording⟩ := hfirst.holds
    have hfails := (failsWith_readRule_iff cs wording).mpr ⟨i, first, hfirst, hwording⟩
    rw [hread] at hfails
    exact not_failsWith_ok hfails
  · intro hmet
    cases hread : readRule cs with
    | ok rule => exact ⟨rule, rfl⟩
    | error defect =>
        obtain ⟨_, requirement, _, hmisses⟩ :=
          (failsWith_readRule_iff cs defect.detail).mp ⟨defect, hread, rfl⟩
        exact absurd hmisses (hmet requirement defect.detail)

/-! ## A whole source -/

/-- Whether a line of a source is to be a rule line and misses a requirement. -/
def Faulty (raw : List Char) : Prop :=
  Rule.isIgnored (trimBlank raw) = false ∧
    ∃ requirement detail, Misses (trimBlank raw) requirement detail

theorem faulty_iff {raw : List Char} : Faulty raw ↔ ∃ defect, Rule.Refused raw defect := by
  have hmisses := not_congr (exists_readRule_eq_ok_iff (trimBlank raw))
  push Not at hmisses
  simp only [Faulty, Rule.Refused, exists_and_left]
  rw [← hmisses]
  refine and_congr_right fun _ => ?_
  cases readRule (trimBlank raw) with
  | ok rule => exact iff_of_false (fun h => h rule rfl) nofun
  | error defect => exact iff_of_true nofun ⟨defect, rfl⟩

/-- A source is refused for the first of its lines that misses a requirement, and for the first
requirement that this line misses. -/
theorem ofText_eq_error_iff {source text : String} {error : SourceError} :
    Rule.ofText source text = .error error ↔
      ∃ i raw, FirstAt Faulty (textLines text.toList) i raw ∧
        MissesFirst (trimBlank raw) Requirement.all error.defect.detail ∧
        error = ⟨source, 1 + i, .ofList (trimBlank raw), error.defect⟩ := by
  have hfaulty : (fun raw => ∃ defect, Rule.Refused raw defect) = Faulty :=
    funext fun raw => propext faulty_iff.symm
  rw [Rule.ofText, Rule.ofLines_eq_error_iff, hfaulty]
  constructor
  · rintro ⟨i, raw, defect, hfirst, ⟨-, hread⟩, rfl⟩
    exact ⟨i, raw, hfirst, (failsWith_readRule_iff _ _).mp ⟨defect, hread, rfl⟩, rfl⟩
  · rintro ⟨i, raw, hfirst, hmisses, herror⟩
    obtain ⟨defect, hread, hdetail⟩ := (failsWith_readRule_iff _ _).mpr hmisses
    obtain rfl := Defect.detail_injective hdetail
    exact ⟨i, raw, error.defect, hfirst, ⟨hfirst.holds.1, hread⟩, herror⟩

/-- What is wrong with a line is told by the first requirement that it misses, for a line on its own
and for a line of a source. Nothing else is refused. -/
theorem refused_for_first_missed_requirement (cs : List Char) (source text : String) :
    (∀ detail, FailsWith (readRule cs) detail ↔ MissesFirst cs Requirement.all detail) ∧
    ((∃ rule, readRule cs = .ok rule) ↔
      ∀ requirement detail, ¬ Misses cs requirement detail) ∧
    (∀ error, Rule.ofText source text = .error error ↔
      ∃ i raw, FirstAt Faulty (textLines text.toList) i raw ∧
        MissesFirst (trimBlank raw) Requirement.all error.defect.detail ∧
        error = ⟨source, 1 + i, .ofList (trimBlank raw), error.defect⟩) ∧
    ((∃ rules, Rule.ofText source text = .ok rules) ↔
      ∀ raw ∈ textLines text.toList, ¬ Faulty raw) := by
  refine ⟨failsWith_readRule_iff cs, exists_readRule_eq_ok_iff cs, fun _ => ofText_eq_error_iff, ?_⟩
  cases hread : Rule.ofText source text with
  | error error =>
      obtain ⟨_, raw, hfirst, -⟩ := ofText_eq_error_iff.mp hread
      exact iff_of_false nofun fun hgood => hgood raw hfirst.mem hfirst.holds
  | ok rules =>
      refine iff_of_true ⟨rules, rfl⟩ ?_
      intro raw hraw hbad
      obtain ⟨i, first, hfirst⟩ := exists_firstAt ⟨raw, hraw, hbad⟩
      obtain ⟨defect, hrefused⟩ := faulty_iff.mp hfirst.holds
      have hmisses := (failsWith_readRule_iff _ _).mp ⟨defect, hrefused.2, rfl⟩
      have hrefuse : Rule.ofText source text =
          .error ⟨source, 1 + i, .ofList (trimBlank first), defect⟩ :=
        ofText_eq_error_iff.mpr ⟨i, first, hfirst, hmisses, rfl⟩
      cases hread.symm.trans hrefuse

/-- A line with a broken class path in its descriptor, and a source with nothing to refuse. -/
theorem refused_for_broken_class_of_descriptor :
    FailsWith (readRule "public a/B.c [L/x;".toList)
        "expected internal class name, type descriptor" ∧
      MissesFirst "public a/B.c [L/x;".toList Requirement.all
        "expected internal class name, type descriptor" ∧
      ∀ raw ∈ textLines "# open\npublic a/B.c [La/x;\n".toList, ¬ Faulty raw := by
  obtain ⟨hline, -, -, hsource⟩ := refused_for_first_missed_requirement
    "public a/B.c [L/x;".toList "rules.at" "# open\npublic a/B.c [La/x;\n"
  have hfails : FailsWith (readRule "public a/B.c [L/x;".toList)
      "expected internal class name, type descriptor" := ⟨.descriptorClassName, rfl, rfl⟩
  have hrules : Rule.ofText "rules.at" "# open\npublic a/B.c [La/x;\n" =
      .ok [⟨2, ⟨.pub, .unstated⟩, .field "a/B" "c" (some "[La/x;")⟩] := by rfl
  exact ⟨hfails, (hline _).mp hfails, hsource.mp ⟨_, hrules⟩⟩

end AccessWidening.Grammar
