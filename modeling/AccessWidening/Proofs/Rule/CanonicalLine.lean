import AccessWidening.Proofs.Rule.LineByLine
import AccessWidening.Proofs.Rule.Reading
import AccessWidening.Rule.Source
import AccessWidening.RuleSet.Canonical

/-!
The lines of a canonical text are rule lines. The written form of an element that a target means is
the text of a target that means it, and neither trimming nor the breaking of a text into lines nor
the skipping of comments does anything to a line that is made of it.
-/

namespace AccessWidening.Grammar

open Syntax

/-! ## Texts without blanks -/

/-- A text with something in it, and no blank. -/
def Solid (cs : List Char) : Prop := cs ≠ [] ∧ ∀ c ∈ cs, isBlank c = false

theorem solid_iff {cs : List Char} :
    Solid cs ↔ (!cs.isEmpty && cs.all fun c => !isBlank c) = true := by
  simp [Solid]

theorem Solid.append {a b : List Char} (ha : Solid a) (hb : Solid b) : Solid (a ++ b) := by
  refine ⟨List.append_ne_nil_of_left_ne_nil ha.1 b, ?_⟩
  intro c hc
  exact (List.mem_append.mp hc).elim (ha.2 c) (hb.2 c)

theorem Solid.cons {c : Char} {cs : List Char} (hc : isBlank c = false) (h : Solid cs) :
    Solid (c :: cs) := by
  have hsingle : Solid [c] := solid_iff.mpr (by simpa using hc)
  exact hsingle.append h

theorem Segment.solid (name : Segment) : Solid name.chars :=
  ⟨name.nonempty, fun c hc => (name.admitted c hc).1⟩

theorem Path.solid (path : Path) : Solid path.text := by
  refine ⟨List.append_ne_nil_of_left_ne_nil path.first.nonempty _, ?_⟩
  intro c hc
  exact (isPathChar_iff.mp (path.isPathChar_of_mem c hc)).1

theorem FieldType.solid (type : FieldType) : Solid type.text := by
  induction type with
  | primitive letter known =>
      have hletters : primitives.all (fun letter => !isBlank letter) = true := rfl
      exact solid_iff.mpr (by simpa [text] using List.all_eq_true.mp hletters letter known)
  | object path =>
      have hclose : Solid [';'] := solid_iff.mpr rfl
      exact Solid.cons (by decide) (path.solid.append hclose)
  | array item ih => exact Solid.cons (by decide) ih

theorem MethodType.solid (type : MethodType) : Solid type.text := by
  have hresult : Solid type.resultText := by
    unfold resultText
    split
    · exact solid_iff.mpr rfl
    · next result _ => exact result.solid
  refine ⟨List.cons_ne_nil _ _, ?_⟩
  intro c hc
  rcases List.mem_cons.mp hc with rfl | hc
  · decide
  rcases List.mem_append.mp hc with hparameter | hc
  · obtain ⟨parameter, -, hparameter⟩ := List.mem_flatMap.mp hparameter
    exact parameter.solid.2 c hparameter
  · exact (Solid.cons (by decide) hresult).2 c hc

theorem Descriptor.solid (descriptor : Descriptor) : Solid descriptor.text := by
  cases descriptor with
  | field type => exact type.solid
  | method type => exact type.solid

/-! ## Texts that trimming and line breaking leave alone -/

/-- A text on one line that neither starts nor ends with a blank. -/
structure Trimmed (cs : List Char) : Prop where
  starts : ∃ c rest, cs = c :: rest ∧ isBlank c = false
  ends : ∃ rest c, cs = rest ++ [c] ∧ isBlank c = false
  unbroken : '\n' ∉ cs

theorem Solid.trimmed {cs : List Char} (h : Solid cs) : Trimmed cs where
  starts := by
    obtain ⟨c, rest, rfl⟩ := List.exists_cons_of_ne_nil h.1
    exact ⟨c, rest, rfl, h.2 c List.mem_cons_self⟩
  ends := by
    have hlast := List.dropLast_concat_getLast h.1
    exact ⟨_, _, hlast.symm, h.2 _ (List.getLast_mem h.1)⟩
  unbroken := by
    intro hmem
    exact absurd (h.2 _ hmem) (by decide)

theorem Trimmed.spaced {a b : List Char} (ha : Trimmed a) (hb : Trimmed b) :
    Trimmed (a ++ ' ' :: b) where
  starts := by
    obtain ⟨c, rest, rfl, hc⟩ := ha.starts
    exact ⟨c, _, rfl, hc⟩
  ends := by
    obtain ⟨rest, c, rfl, hc⟩ := hb.ends
    exact ⟨a ++ ' ' :: rest, c, by simp, hc⟩
  unbroken := by
    simp [ha.unbroken, hb.unbroken]

theorem Trimmed.trimBlank_eq {cs : List Char} (h : Trimmed cs) : trimBlank cs = cs := by
  obtain ⟨c, rest, hstarts, hc⟩ := h.starts
  obtain ⟨before, d, hends, hd⟩ := h.ends
  have hfront : cs.dropWhile isBlank = cs := by simp [hstarts, hc]
  have hback : cs.reverse.dropWhile isBlank = cs.reverse := by simp [hends, hd]
  rw [trimBlank, hfront, hback, List.reverse_reverse]

/-! ## Canonical lines -/

def Blanks.space : Blanks := ⟨[' '], List.cons_ne_nil _ _, by simp⟩

/-- The form in which a target is written: a member with a descriptor has a slash before its name,
and one space after it. -/
def Target.canonical : Target → Target
  | dotted owner name _ descriptor => slashed owner name .space descriptor
  | slashed owner name _ descriptor => slashed owner name .space descriptor
  | classItself path => classItself path
  | byName owner name => byName owner name

namespace Target

variable (target : Target)

theorem element_canonical : target.canonical.element = target.element := by
  cases target <;> rfl

theorem text_canonical : target.canonical.text = target.element.text.toList := by
  have hdescriptor (owner : Path) (name : Segment) (descriptor : Descriptor) :
      (slashed owner name .space descriptor).text =
        (descriptor.element owner name).text.toList := by
    cases descriptor <;>
      simp [text, Blanks.space, Descriptor.element, Descriptor.text, Element.text]
  cases target with
  | classItself path => simp [canonical, text, element, Element.text]
  | byName owner name => simp [canonical, text, element, Element.text]
  | dotted owner name blanks descriptor => exact hdescriptor owner name descriptor
  | slashed owner name blanks descriptor => exact hdescriptor owner name descriptor

theorem trimmed_canonical : Trimmed target.canonical.text := by
  have hmember (owner : Path) (name : Segment) (descriptor : Descriptor) :
      Trimmed (slashed owner name .space descriptor).text := by
    have hname : Solid (owner.text ++ '/' :: name.chars) :=
      owner.solid.append (Solid.cons (by decide) name.solid)
    have hspaced := hname.trimmed.spaced descriptor.solid.trimmed
    simpa [text, Blanks.space] using hspaced
  cases target with
  | classItself path => exact path.solid.trimmed
  | byName owner name =>
      exact (owner.solid.append (Solid.cons (by decide) name.solid)).trimmed
  | dotted owner name blanks descriptor => exact hmember owner name descriptor
  | slashed owner name blanks descriptor => exact hmember owner name descriptor

end Target

def Line.canonical (level : Level) (target : Target) : Line := ⟨level, .space, target.canonical⟩

theorem toList_entryLine (level : Level) (target : Target) :
    (entryLine (target.element, level)).toList =
      (Line.canonical level target).text ++ ['\n'] := by
  simp [entryLine, Line.canonical, Line.text, Target.text_canonical, Blanks.space]

theorem exists_cons_levelText (level : Level) :
    ∃ c rest, level.text.toList = c :: rest ∧ (c = 'p' ∨ c = 'd') := by
  rw [Level.text, String.toList_append]
  cases level.visibility with
  | priv => exact ⟨'p', _, rfl, .inl rfl⟩
  | package => exact ⟨'d', _, rfl, .inr rfl⟩
  | prot => exact ⟨'p', _, rfl, .inl rfl⟩
  | pub => exact ⟨'p', _, rfl, .inl rfl⟩

theorem solid_levelText (level : Level) : Solid level.text.toList := by
  obtain ⟨visibility, finality⟩ := level
  cases visibility <;> cases finality <;> exact solid_iff.mpr rfl

theorem Line.trimmed_canonical (level : Level) (target : Target) :
    Trimmed (Line.canonical level target).text := by
  have hspaced := (solid_levelText level).trimmed.spaced target.trimmed_canonical
  simpa [Line.text, Line.canonical, Blanks.space] using hspaced

/-- The text of some entries starts with the line of the first. -/
theorem textLines_entryLine_cons (level : Level) (target : Target)
    (entries : List (Element × Level)) :
    textLines (String.join (((target.element, level) :: entries).map entryLine)).toList =
      (Line.canonical level target).text ::
        textLines (String.join (entries.map entryLine)).toList := by
  rw [List.map_cons, String.join_cons, String.toList_append, toList_entryLine, List.append_assoc]
  exact List.splitOn_append_cons_self_of_not_mem (Line.trimmed_canonical level target).unbroken _

theorem Line.not_ignored (line : Line) : Rule.isIgnored line.text = false := by
  obtain ⟨c, rest, htext, hc⟩ := exists_cons_levelText line.level
  rw [Line.text, htext]
  rcases hc with rfl | rfl <;> rfl

/-- Every rule of a text names an element that a target means. -/
theorem exists_target_of_ofLines {source : String} {number : Nat} {lines : List (List Char)}
    {found : List Rule} (h : Rule.ofLines source number lines = .ok found) :
    ∀ rule ∈ found, ∃ target : Target, target.element = rule.element := by
  intro rule hrule
  obtain ⟨_, _, _, ⟨_, hread⟩, _⟩ := (Rule.mem_ofLines_iff h).mp hrule
  obtain ⟨line, -, -, htarget⟩ := exists_of_readRule hread
  exact ⟨line.target, htarget⟩

end AccessWidening.Grammar
