import Mathlib.Logic.ExistsUnique
import AccessWidening.Proofs.Outcome
import AccessWidening.Proofs.Rule.Descriptors

/-!
Rule lines are read as the grammar has them: the lines that are accepted are the texts of the
grammar's trees, no two trees have the same text, and what a line is read as is what its tree means.
-/

namespace AccessWidening.Grammar

open Syntax

/-! ## Blanks -/

theorem isSeparator_iff {c : Char} : isSeparator c = true ↔ c = ' ' ∨ c = '\t' := by
  rw [isSeparator, decide_eq_true_iff]

theorem readSeparators_append (blanks : Blanks) {rest : List Char}
    (hstop : Stops isSeparator rest) : readSeparators (blanks.chars ++ rest) = .ok rest := by
  obtain ⟨chars, hne, hadmitted⟩ := blanks
  obtain ⟨c, more, rfl⟩ := List.exists_cons_of_ne_nil hne
  obtain ⟨hc, hmore⟩ := List.forall_mem_cons.mp hadmitted
  have hrun : ∀ d ∈ more, isSeparator d = true := fun d hd => isSeparator_iff.mpr (hmore d hd)
  rw [List.cons_append, readSeparators, if_pos (isSeparator_iff.mpr hc), dropWhile_run hrun hstop]

theorem exists_of_readSeparators {cs rest : List Char} (h : readSeparators cs = .ok rest) :
    ∃ blanks : Blanks, cs = blanks.chars ++ rest := by
  cases cs with
  | nil => cases h
  | cons c cs =>
      rw [readSeparators] at h
      split at h
      · next hc =>
        obtain rfl := Except.ok.inj h
        refine ⟨⟨c :: cs.takeWhile isSeparator, List.cons_ne_nil _ _, ?_⟩, ?_⟩
        · rw [List.forall_mem_cons]
          refine ⟨isSeparator_iff.mp hc, ?_⟩
          intro d hd
          exact isSeparator_iff.mp (List.all_eq_true.mp List.all_takeWhile d hd)
        · rw [List.cons_append, List.takeWhile_append_dropWhile]
      · cases h

/-! ## Levels -/

theorem readVisibility_append (v : Visibility) (rest : List Char) :
    readVisibility (v.word.toList ++ rest) = .ok (v, rest) := by
  cases v <;> simp [readVisibility, Visibility.word]

theorem readVisibility_eq_ok {cs rest : List Char} {v : Visibility}
    (h : readVisibility cs = .ok (v, rest)) : cs = v.word.toList ++ rest := by
  unfold readVisibility at h
  dsimp only at h
  split at h
  · next found hfound =>
    obtain ⟨rfl, rfl⟩ := Prod.mk.inj (Except.ok.inj h)
    have hprefix : found.word.toList.isPrefixOf cs = true := by simpa using List.find?_some hfound
    exact (List.prefix_iff_eq_append.mp (List.isPrefixOf_iff_prefix.mp hprefix)).symm
  · cases h

def isSign (c : Char) : Bool := c = '+' ∨ c = '-'

theorem readFinality_append (f : Finality) {rest : List Char} (hstop : Stops isSign rest) :
    readFinality (f.mark.toList ++ rest) = (f, rest) := by
  cases f with
  | unstated =>
      change readFinality rest = _
      unfold readFinality
      split
      · exact absurd (hstop '+' rfl) (by decide)
      · exact absurd (hstop '-' rfl) (by decide)
      · rfl
  | addFinal => rfl
  | dropFinal => rfl

theorem readFinality_eq {cs rest : List Char} {f : Finality} (h : readFinality cs = (f, rest)) :
    cs = f.mark.toList ++ rest := by
  unfold readFinality at h
  split at h <;> cases h <;> rfl

theorem readLevel_append (level : Level) {rest : List Char} (hstop : Stops isSign rest) :
    readLevel (level.text.toList ++ rest) = .ok (level, rest) := by
  simp only [readLevel, Level.text, String.toList_append, List.append_assoc, readVisibility_append,
    bind, Except.bind, readFinality_append level.finality hstop]
  rfl

theorem readLevel_eq_ok {cs rest : List Char} {level : Level}
    (h : readLevel cs = .ok (level, rest)) : cs = level.text.toList ++ rest := by
  unfold readLevel at h
  obtain ⟨⟨v, after⟩, hvisibility, hafter⟩ := bind_eq_ok h
  obtain ⟨rfl, rfl⟩ := Prod.mk.inj (Except.ok.inj hafter)
  rw [readVisibility_eq_ok hvisibility, Level.text, String.toList_append, List.append_assoc]
  exact congrArg _ (readFinality_eq rfl)

/-! ## Targets -/

theorem readDescriptor_append (blanks : Blanks) (descriptor : Descriptor) :
    readDescriptor (blanks.chars ++ descriptor.text) =
      .ok (some (descriptor.kind, descriptor.text), []) := by
  have hscan := scanDescriptor_append descriptor []
  have hstop := descriptor.stops []
  rw [List.append_nil] at hscan hstop
  simp only [readDescriptor, readSeparators_append blanks hstop, hscan]

theorem readDescriptor_eq_ok {cs rest : List Char} {found : Option (DescriptorKind × List Char)}
    (h : readDescriptor cs = .ok (found, rest)) :
    (found = none ∧ cs = rest) ∨ ∃ (blanks : Blanks) (descriptor : Descriptor),
      found = some (descriptor.kind, descriptor.text) ∧
        cs = blanks.chars ++ (descriptor.text ++ rest) := by
  unfold readDescriptor at h
  split at h
  · obtain ⟨rfl, rfl⟩ := Prod.mk.inj (Except.ok.inj h)
    exact .inl ⟨rfl, rfl⟩
  · next after hseparators =>
    obtain ⟨blanks, rfl⟩ := exists_of_readSeparators hseparators
    split at h
    · next kind text last hscan =>
      obtain ⟨rfl, rfl⟩ := Prod.mk.inj (Except.ok.inj h)
      obtain ⟨descriptor, rfl, rfl, rfl⟩ := exists_of_scanDescriptor hscan
      exact .inr ⟨blanks, descriptor, rfl, rfl⟩
    · cases h

theorem memberElement_descriptor (owner : Path) (name : Segment) (descriptor : Descriptor) :
    memberElement owner.text name.chars (some (descriptor.kind, descriptor.text)) =
      descriptor.element owner name := by
  cases descriptor <;> rfl

theorem Blanks.stops (blanks : Blanks) {admitted : Char → Bool}
    (hspace : admitted ' ' = false) (htab : admitted '\t' = false) (rest : List Char) :
    Stops admitted (blanks.chars ++ rest) := by
  obtain ⟨chars, hne, hadmitted⟩ := blanks
  obtain ⟨c, more, rfl⟩ := List.exists_cons_of_ne_nil hne
  apply stops_cons
  rcases hadmitted c List.mem_cons_self with rfl | rfl
  · exact hspace
  · exact htab

theorem readTarget_text (target : Target) : readTarget target.text = .ok (target.element, []) := by
  cases target with
  | classItself path =>
      have hscan := scanPath_append path stops_nil
      rw [List.append_nil] at hscan
      simp only [Target.text, readTarget, hscan]
      rfl
  | byName owner name =>
      have hdot : Stops isPathChar ('.' :: name.chars) := stops_cons (by decide)
      have howner := scanPath_append owner hdot
      have hname := scanName_append name stops_nil
      rw [List.append_nil] at hname
      simp only [Target.text, readTarget, howner, hname]
      rfl
  | dotted owner name blanks descriptor =>
      have hdot : Stops isPathChar ('.' :: (name.chars ++ (blanks.chars ++ descriptor.text))) :=
        stops_cons (by decide)
      have hblanks : Stops isNameChar (blanks.chars ++ descriptor.text) :=
        blanks.stops (by decide) (by decide) descriptor.text
      have howner := scanPath_append owner hdot
      have hname := scanName_append name hblanks
      simp only [Target.text, List.append_assoc, List.cons_append, readTarget, howner, hname,
        readDescriptor_append, bind, Except.bind, memberElement_descriptor]
      rfl
  | slashed owner name blanks descriptor =>
      -- the owner and the name are read as one path, which is split when the descriptor is there
      have hstop : Stops isPathChar (blanks.chars ++ descriptor.text) :=
        blanks.stops (by decide) (by decide) descriptor.text
      have hpath := scanPath_append (owner.snoc name) hstop
      have hsplit := splitAtLastSlash_text.mpr ⟨owner, name, rfl, rfl, rfl⟩
      have htext : (Target.slashed owner name blanks descriptor).text =
          (owner.snoc name).text ++ (blanks.chars ++ descriptor.text) := by
        simp [Target.text, Path.text_snoc]
      rw [htext, readTarget, hpath]
      split
      · next heq => cases heq
      · next heq =>
        have hdotless : Stops (fun c => decide (c = '.')) (blanks.chars ++ descriptor.text) :=
          blanks.stops (by decide) (by decide) descriptor.text
        obtain ⟨-, hdot⟩ := Prod.mk.inj (Option.some.inj heq)
        rw [hdot] at hdotless
        exact absurd (hdotless '.' rfl) (by decide)
      · next heq =>
        obtain ⟨rfl, rfl⟩ := Prod.mk.inj (Option.some.inj heq)
        simp only [readDescriptor_append, bind, Except.bind, hsplit, memberElement_descriptor]
        rfl

theorem exists_of_readTarget {cs : List Char} {e : Element} (h : readTarget cs = .ok (e, [])) :
    ∃ target : Target, target.text = cs ∧ target.element = e := by
  unfold readTarget at h
  split at h
  · cases h
  · next path after hscan =>
    split at h
    · cases h
    · next name rest hname =>
      obtain ⟨⟨found, last⟩, hdescriptor, hfound⟩ := bind_eq_ok h
      obtain ⟨rfl, rfl⟩ := Prod.mk.inj (Except.ok.inj hfound)
      have hcs := scanPath_eq_some hscan
      have hafter := scanName_eq_some hname
      obtain ⟨owner, rfl⟩ := exists_of_scanPath hscan
      obtain ⟨name, rfl⟩ := exists_of_scanName hname
      rcases readDescriptor_eq_ok hdescriptor with ⟨rfl, rfl⟩ | ⟨blanks, descriptor, rfl, rfl⟩
      · refine ⟨.byName owner name, ?_, rfl⟩
        rw [hcs, hafter, List.append_nil]
        rfl
      · refine ⟨.dotted owner name blanks descriptor, ?_, ?_⟩
        · rw [hcs, hafter, List.append_nil]
          simp [Target.text]
        · exact (memberElement_descriptor owner name descriptor).symm
  · next path rest _ hscan =>
    obtain ⟨⟨found, last⟩, hdescriptor, hfound⟩ := bind_eq_ok h
    have hcs := scanPath_eq_some hscan
    obtain ⟨path, rfl⟩ := exists_of_scanPath hscan
    rcases readDescriptor_eq_ok hdescriptor with ⟨rfl, rfl⟩ | ⟨blanks, descriptor, rfl, rfl⟩
    · obtain ⟨rfl, rfl⟩ := Prod.mk.inj (Except.ok.inj hfound)
      refine ⟨.classItself path, ?_, rfl⟩
      rw [hcs, List.append_nil]
      rfl
    · dsimp only at hfound
      split at hfound
      · next hsplit =>
        obtain ⟨rfl, rfl⟩ := Prod.mk.inj (Except.ok.inj hfound)
        obtain ⟨owner, name, rfl, rfl, rfl⟩ := splitAtLastSlash_text.mp hsplit
        refine ⟨.slashed owner name blanks descriptor, ?_, ?_⟩
        · rw [hcs, Path.text_snoc]
          simp [Target.text]
        · exact (memberElement_descriptor owner name descriptor).symm
      · cases hfound

/-! ## Lines -/

theorem Path.stops (path : Path) {admitted : Char → Bool}
    (hadmitted : ∀ c, isBlank c = false → admitted c = false) (rest : List Char) :
    Stops admitted (path.text ++ rest) := by
  obtain ⟨⟨chars, hne, hchars⟩, more⟩ := path
  obtain ⟨c, others, rfl⟩ := List.exists_cons_of_ne_nil hne
  exact stops_cons (hadmitted c (hchars c List.mem_cons_self).1)

theorem Target.exists_path (target : Target) :
    ∃ (path : Path) (rest : List Char), target.text = path.text ++ rest := by
  cases target with
  | classItself path => exact ⟨path, [], (List.append_nil _).symm⟩
  | byName owner name => exact ⟨owner, _, rfl⟩
  | dotted owner name blanks descriptor =>
      exact ⟨owner, _, by rw [text, List.append_assoc, List.append_assoc]⟩
  | slashed owner name blanks descriptor =>
      exact ⟨owner, _, by rw [text, List.append_assoc, List.append_assoc]⟩

theorem Target.stops (target : Target) : Stops isSeparator target.text := by
  obtain ⟨path, rest, htext⟩ := target.exists_path
  rw [htext]
  apply path.stops
  intro c hc
  rw [← Bool.not_eq_true, isSeparator_iff]
  rintro (rfl | rfl)
  · exact absurd hc (by decide)
  · exact absurd hc (by decide)

theorem readRule_text (line : Line) :
    readRule line.text = .ok (line.level, line.target.element) := by
  have hlevel : Stops isSign (line.blanks.chars ++ line.target.text) :=
    line.blanks.stops (by decide) (by decide) line.target.text
  simp only [readRule, Line.text, List.append_assoc, readLevel_append line.level hlevel,
    readSeparators_append line.blanks line.target.stops, readTarget_text, bind, Except.bind]
  rfl

theorem exists_of_readRule {cs : List Char} {level : Level} {e : Element}
    (h : readRule cs = .ok (level, e)) :
    ∃ line : Line, line.text = cs ∧ line.level = level ∧ line.target.element = e := by
  unfold readRule at h
  obtain ⟨⟨found, after⟩, hlevel, hafter⟩ := bind_eq_ok h
  obtain ⟨rest, hseparators, hrest⟩ := bind_eq_ok hafter
  obtain ⟨⟨element, last⟩, htarget, hlast⟩ := bind_eq_ok hrest
  dsimp only at hlast
  split at hlast
  · next hempty =>
    obtain rfl := List.isEmpty_iff.mp hempty
    obtain ⟨rfl, rfl⟩ := Prod.mk.inj (Except.ok.inj hlast)
    obtain ⟨blanks, rfl⟩ := exists_of_readSeparators hseparators
    obtain ⟨target, rfl, rfl⟩ := exists_of_readTarget htarget
    refine ⟨⟨found, blanks, target⟩, ?_, rfl, rfl⟩
    rw [readLevel_eq_ok hlevel, Line.text, List.append_assoc]
  · cases hlast

/-! ## One reading -/

theorem Descriptor.element_injective {owner owner' : Path} {name name' : Segment}
    {descriptor descriptor' : Descriptor}
    (h : descriptor.element owner name = descriptor'.element owner' name') :
    owner = owner' ∧ name = name' ∧ descriptor = descriptor' := by
  cases descriptor with
  | field type =>
      cases descriptor' with
      | field type' =>
          obtain ⟨howner, hname, htype⟩ := Element.field.inj h
          refine ⟨Path.text_injective (String.ofList_injective howner),
            Segment.ext (String.ofList_injective hname), ?_⟩
          rw [FieldType.text_injective (String.ofList_injective (Option.some.inj htype))]
      | method type' => cases h
  | method type =>
      cases descriptor' with
      | field type' => cases h
      | method type' =>
          obtain ⟨howner, hname, htype⟩ := Element.method.inj h
          refine ⟨Path.text_injective (String.ofList_injective howner),
            Segment.ext (String.ofList_injective hname), ?_⟩
          rw [MethodType.text_injective (String.ofList_injective htype)]

theorem Descriptor.element_ne_classItself {descriptor : Descriptor} {owner : Path}
    {name : Segment} {other : String} : descriptor.element owner name ≠ .classItself other := by
  cases descriptor <;> simp [element]

theorem Descriptor.element_ne_byName {descriptor : Descriptor} {owner : Path} {name : Segment}
    {owner' name' : String} : descriptor.element owner name ≠ .field owner' name' none := by
  cases descriptor <;> simp [element]

/-- The text of a target has one reading: the element that it means tells all of its parts but the
blanks and the mark before the name, and these are what is left of the text. -/
theorem Target.text_injective {a b : Target} (h : a.text = b.text) : a = b := by
  have helement : a.element = b.element := by
    have hread := readTarget_text a
    rw [h, readTarget_text b] at hread
    exact (Prod.mk.inj (Except.ok.inj hread)).1.symm
  cases a with
  | classItself path =>
      cases b with
      | classItself path' => rw [Path.text_injective h]
      | byName owner' name' => cases helement
      | dotted owner' name' blanks' descriptor' =>
          exact absurd helement.symm Descriptor.element_ne_classItself
      | slashed owner' name' blanks' descriptor' =>
          exact absurd helement.symm Descriptor.element_ne_classItself
  | byName owner name =>
      cases b with
      | classItself path' => cases helement
      | byName owner' name' =>
          obtain ⟨howner, hname, -⟩ := Element.field.inj helement
          rw [Path.text_injective (String.ofList_injective howner),
            Segment.ext (String.ofList_injective hname)]
      | dotted owner' name' blanks' descriptor' =>
          exact absurd helement.symm Descriptor.element_ne_byName
      | slashed owner' name' blanks' descriptor' =>
          exact absurd helement.symm Descriptor.element_ne_byName
  | dotted owner name blanks descriptor =>
      cases b with
      | classItself path' => exact absurd helement Descriptor.element_ne_classItself
      | byName owner' name' => exact absurd helement Descriptor.element_ne_byName
      | dotted owner' name' blanks' descriptor' =>
          obtain ⟨rfl, rfl, rfl⟩ := Descriptor.element_injective helement
          have hblanks := List.append_cancel_left (List.append_cancel_right h)
          rw [Blanks.ext hblanks]
      | slashed owner' name' blanks' descriptor' =>
          -- the same member, so the texts part at the mark before its name
          obtain ⟨rfl, rfl, rfl⟩ := Descriptor.element_injective helement
          simp [text] at h
  | slashed owner name blanks descriptor =>
      cases b with
      | classItself path' => exact absurd helement Descriptor.element_ne_classItself
      | byName owner' name' => exact absurd helement Descriptor.element_ne_byName
      | dotted owner' name' blanks' descriptor' =>
          obtain ⟨rfl, rfl, rfl⟩ := Descriptor.element_injective helement
          simp [text] at h
      | slashed owner' name' blanks' descriptor' =>
          obtain ⟨rfl, rfl, rfl⟩ := Descriptor.element_injective helement
          have hblanks := List.append_cancel_left (List.append_cancel_right h)
          rw [Blanks.ext hblanks]

theorem Line.text_injective {a b : Line} (h : a.text = b.text) : a = b := by
  have hread := readRule_text a
  rw [h, readRule_text b] at hread
  have hlevel : b.level = a.level := (Prod.mk.inj (Except.ok.inj hread)).1
  obtain ⟨level, blanks, target⟩ := a
  obtain ⟨level', blanks', target'⟩ := b
  obtain rfl : level' = level := hlevel
  simp only [text, List.append_assoc] at h
  have hrest := List.append_cancel_left h
  have hseparators := readSeparators_append blanks target.stops
  rw [hrest, readSeparators_append blanks' target'.stops] at hseparators
  obtain rfl : target' = target := Target.text_injective (Except.ok.inj hseparators)
  rw [Blanks.ext (List.append_cancel_right hrest)]

/-- A rule line is accepted exactly if it is a line of the grammar, and it is read as what the line
means. The line has one tree of the grammar: there is one way to take it apart. -/
theorem accepts_exactly_grammar (cs : List Char) :
    ((∃ rule, readRule cs = .ok rule) ↔ ∃! line : Line, line.text = cs) ∧
      ∀ line : Line, readRule line.text = .ok (line.level, line.target.element) := by
  refine ⟨⟨?_, ?_⟩, readRule_text⟩
  · rintro ⟨rule, hread⟩
    obtain ⟨line, htext, -, -⟩ := exists_of_readRule hread
    refine ⟨line, htext, ?_⟩
    intro other hother
    exact Line.text_injective (hother.trans htext.symm)
  · rintro ⟨line, rfl, -⟩
    exact ⟨_, readRule_text line⟩

/-- A no-break space ends a path, but it separates nothing. -/
example : readRule "public a/B\u00A0I".toList = .error .endOfLine := rfl

end AccessWidening.Grammar
