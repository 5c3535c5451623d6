import AccessWidening.Proofs.First
import AccessWidening.Proofs.Outcome
import AccessWidening.Proofs.Text.Lines
import AccessWidening.Rule.Source

/-!
Rule text is read line by line. What comes of a line is a matter of the line alone, trimmed, and of
its number; what comes of a source is what comes of its lines, one after the other, up to the first
that is refused.
-/

namespace AccessWidening

open Syntax

/-- An error that many lines further down. -/
def SourceError.below (k : Nat) (error : SourceError) : SourceError :=
  { error with line := error.line + k }

namespace Rule

def below (k : Nat) (rule : Rule) : Rule := { rule with line := rule.line + k }

/-- What comes of reading lines: their rules, or the first fault. -/
abbrev Outcome := Except SourceError (List Rule)

namespace Outcome

/-- What comes of reading two pieces of text, one after the other. -/
def followedBy (first second : Outcome) : Outcome :=
  match first with
  | .error error => .error error
  | .ok found => second.map (found ++ ·)

def below (k : Nat) : Outcome → Outcome
  | .error error => .error (error.below k)
  | .ok found => .ok (found.map (Rule.below k))

def numberless : Outcome → Outcome
  | .error error => .error { error with line := 0 }
  | .ok found => .ok (found.map fun rule => { rule with line := 0 })

theorem ok_nil_followedBy (outcome : Outcome) : followedBy (.ok []) outcome = outcome := by
  cases outcome <;> rfl

theorem followedBy_assoc (a b c : Outcome) :
    (a.followedBy b).followedBy c = a.followedBy (b.followedBy c) := by
  cases a with
  | error error => rfl
  | ok first =>
      cases b with
      | error error => rfl
      | ok second =>
          cases c with
          | error error => rfl
          | ok third => exact congrArg Except.ok (List.append_assoc first second third)

theorem below_followedBy (k : Nat) (a b : Outcome) :
    (a.followedBy b).below k = (a.below k).followedBy (b.below k) := by
  cases a with
  | error error => rfl
  | ok first =>
      cases b with
      | error error => rfl
      | ok second => exact congrArg Except.ok List.map_append

theorem numberless_followedBy (a b : Outcome) :
    (a.followedBy b).numberless = a.numberless.followedBy b.numberless := by
  cases a with
  | error error => rfl
  | ok first =>
      cases b with
      | error error => rfl
      | ok second => exact congrArg Except.ok List.map_append

theorem followedBy_eq_ok {a b : Outcome} {found : List Rule} (h : a.followedBy b = .ok found) :
    ∃ first second, a = .ok first ∧ b = .ok second ∧ first ++ second = found := by
  cases a with
  | error error => cases h
  | ok first =>
      obtain ⟨second, hsecond, hfound⟩ := map_eq_ok h
      exact ⟨first, second, rfl, hsecond, hfound⟩

theorem followedBy_eq_error_iff {a b : Outcome} {error : SourceError} :
    a.followedBy b = .error error ↔
      a = .error error ∨ (∃ first, a = .ok first) ∧ b = .error error := by
  cases a with
  | error other => simp [followedBy]
  | ok first => cases b <;> simp [followedBy, Except.map]

end Outcome

def ofLine (source : String) (number : Nat) (raw : List Char) : Outcome :=
  if isIgnored (trimBlank raw) then .ok []
  else
    match readRule (trimBlank raw) with
    | .error defect => .error ⟨source, number, .ofList (trimBlank raw), defect⟩
    | .ok (level, element) => .ok [⟨number, level, element⟩]

def Refused (raw : List Char) (defect : Defect) : Prop :=
  isIgnored (trimBlank raw) = false ∧ readRule (trimBlank raw) = .error defect

def Holds (raw : List Char) (level : Level) (e : Element) : Prop :=
  isIgnored (trimBlank raw) = false ∧ readRule (trimBlank raw) = .ok (level, e)

variable {source : String} {number : Nat} {raw : List Char} {lines others : List (List Char)}
  {found : List Rule} {error : SourceError}

/-! ## One line -/

/-- A line is ignored, or it is refused, or it holds a rule. -/
theorem ofLine_cases (source : String) (number : Nat) (raw : List Char) :
    (isIgnored (trimBlank raw) = true ∧ ofLine source number raw = .ok []) ∨
    (∃ defect, Refused raw defect ∧
      ofLine source number raw = .error ⟨source, number, .ofList (trimBlank raw), defect⟩) ∨
    ∃ level e, Holds raw level e ∧ ofLine source number raw = .ok [⟨number, level, e⟩] := by
  unfold ofLine
  cases hignored : isIgnored (trimBlank raw) with
  | true => exact .inl ⟨rfl, rfl⟩
  | false =>
      right
      cases hread : readRule (trimBlank raw) with
      | error defect => exact .inl ⟨defect, ⟨hignored, hread⟩, rfl⟩
      | ok reading => exact .inr ⟨reading.1, reading.2, ⟨hignored, hread⟩, rfl⟩

theorem ofLine_below (source : String) (number k : Nat) (raw : List Char) :
    ofLine source (number + k) raw = (ofLine source number raw).below k := by
  unfold ofLine
  split
  · rfl
  · split <;> rfl

theorem numberless_ofLine (source : String) (number other : Nat) (raw : List Char) :
    (ofLine source number raw).numberless = (ofLine source other raw).numberless := by
  unfold ofLine
  split
  · rfl
  · split <;> rfl

/-- Only the trimmed line matters. -/
theorem ofLine_congr {padded : List Char} (h : trimBlank padded = trimBlank raw) :
    ofLine source number padded = ofLine source number raw := by
  unfold ofLine
  rw [h]

/-! ## Lines, one after the other -/

theorem ofLines_cons (source : String) (number : Nat) (raw : List Char)
    (lines : List (List Char)) :
    ofLines source number (raw :: lines) =
      (ofLine source number raw).followedBy (ofLines source (number + 1) lines) := by
  rw [ofLines, ofLine]
  split
  · exact (Outcome.ok_nil_followedBy _).symm
  · cases readRule (trimBlank raw) <;> rfl

theorem ofLines_append (source : String) (number : Nat) (lines others : List (List Char)) :
    ofLines source number (lines ++ others) =
      Outcome.followedBy (ofLines source number lines)
        (ofLines source (number + lines.length) others) := by
  induction lines generalizing number with
  | nil => exact (Outcome.ok_nil_followedBy _).symm
  | cons raw lines ih =>
      have hnumber : number + 1 + lines.length = number + (raw :: lines).length := by
        rw [List.length_cons]
        omega
      rw [List.cons_append, ofLines_cons, ofLines_cons, ih, Outcome.followedBy_assoc, hnumber]

/-- Where the first line stands is added to every number. -/
theorem ofLines_below (source : String) (number k : Nat) (lines : List (List Char)) :
    ofLines source (number + k) lines = Outcome.below k (ofLines source number lines) := by
  induction lines generalizing number with
  | nil => rfl
  | cons raw lines ih =>
      rw [ofLines_cons, ofLines_cons, Outcome.below_followedBy, ofLine_below, ← ih,
        Nat.add_right_comm]

/-- Two texts with a line feed between them are read one after the other. -/
theorem ofText_join (source a b : String) :
    ofText source (a ++ "\n" ++ b) =
      Outcome.followedBy (ofText source a)
        (Outcome.below (1 + a.toList.count '\n') (ofText source b)) := by
  have hchars : (a ++ "\n" ++ b).toList = a.toList ++ '\n' :: b.toList := by simp
  rw [ofText, hchars, textLines_join, ofLines_append, length_textLines, ofLines_below]
  rfl

/-- Blanks at the ends of lines change nothing. -/
theorem ofLines_padded (source : String) (number : Nat) (h : List.Forall₂ Padded lines others) :
    ofLines source number others = ofLines source number lines := by
  induction h generalizing number with
  | nil => rfl
  | cons hline _ ih => rw [ofLines_cons, ofLines_cons, ofLine_congr hline.trimBlank_eq, ih]

/-- Neither does breaking the text into lines as a file has them. -/
theorem ofLines_fileLines (source : String) (number : Nat) (lines : List (List Char)) :
    ofLines source number (fileLines lines) = ofLines source number lines := by
  induction lines using fileLines.induct generalizing number with
  | case1 => rfl
  | case2 => rfl
  | case3 last hlast => rw [fileLines, if_neg hlast]
  | case4 line rest hrest ih =>
      rw [fileLines, ofLines_cons, ofLines_cons, ofLine_congr (trimBlank_withoutReturn line), ih]
      exact hrest

/-! ## Lines that hold no rule -/

/-- Whether lines differ from others by lines that hold no rule and were put between them. -/
inductive Interspersed : List (List Char) → List (List Char) → Prop where
  | nil : Interspersed [] []
  | keep (raw : List Char) {lines others : List (List Char)} (rest : Interspersed lines others) :
      Interspersed (raw :: lines) (raw :: others)
  | put {raw : List Char} (ignored : isIgnored (trimBlank raw) = true)
      {lines others : List (List Char)} (rest : Interspersed lines others) :
      Interspersed lines (raw :: others)

theorem ofLine_of_isIgnored (source : String) (number : Nat)
    (h : isIgnored (trimBlank raw) = true) : ofLine source number raw = .ok [] := by
  rw [ofLine, if_pos h]

/-- Lines without a rule change the numbers of lines, and nothing else. -/
theorem numberless_ofLines_interspersed (source : String) (number other : Nat)
    (h : Interspersed lines others) :
    Outcome.numberless (ofLines source other others) =
      Outcome.numberless (ofLines source number lines) := by
  induction h generalizing number other with
  | nil => rfl
  | keep raw _ ih =>
      rw [ofLines_cons, ofLines_cons, Outcome.numberless_followedBy,
        Outcome.numberless_followedBy, numberless_ofLine source other number, ih]
  | put hignored _ ih =>
      rw [ofLines_cons, ofLine_of_isIgnored source other hignored, Outcome.ok_nil_followedBy, ih]

/-! ## Which lines the rules and the fault are from -/

theorem mem_ofLine_iff (h : ofLine source number raw = .ok found) {rule : Rule} :
    rule ∈ found ↔ Holds raw rule.level rule.element ∧ rule.line = number := by
  obtain ⟨line, level, e⟩ := rule
  rcases ofLine_cases source number raw with
    ⟨hignored, hline⟩ | ⟨_, _, hline⟩ | ⟨level', e', hholds, hline⟩
  · obtain rfl := Except.ok.inj (hline.symm.trans h)
    refine iff_of_false List.not_mem_nil ?_
    rintro ⟨⟨hnot, _⟩, _⟩
    rw [hignored] at hnot
    cases hnot
  · cases hline.symm.trans h
  · obtain rfl := Except.ok.inj (hline.symm.trans h)
    rw [List.mem_singleton, Rule.mk.injEq]
    constructor
    · rintro ⟨rfl, rfl, rfl⟩
      exact ⟨hholds, rfl⟩
    · rintro ⟨⟨_, hread⟩, hnumber⟩
      obtain ⟨hlevel, helement⟩ := Prod.mk.inj (Except.ok.inj (hread.symm.trans hholds.2))
      exact ⟨hnumber, hlevel, helement⟩

theorem ofLine_eq_error_iff : ofLine source number raw = .error error ↔
    ∃ defect, Refused raw defect ∧ error = ⟨source, number, .ofList (trimBlank raw), defect⟩ := by
  constructor
  · intro h
    rcases ofLine_cases source number raw with
      ⟨_, hline⟩ | ⟨defect, hrefused, hline⟩ | ⟨_, _, _, hline⟩
    · cases hline.symm.trans h
    · exact ⟨defect, hrefused, (Except.error.inj (hline.symm.trans h)).symm⟩
    · cases hline.symm.trans h
  · rintro ⟨defect, ⟨hignored, hread⟩, rfl⟩
    simp [ofLine, hignored, hread]

theorem exists_ofLine_eq_ok_iff :
    (∃ found, ofLine source number raw = .ok found) ↔ ¬ ∃ defect, Refused raw defect := by
  cases hline : ofLine source number raw with
  | error error =>
      obtain ⟨defect, hrefused, _⟩ := ofLine_eq_error_iff.mp hline
      exact iff_of_false (by simp) fun hnot => hnot ⟨defect, hrefused⟩
  | ok found =>
      refine iff_of_true ⟨found, rfl⟩ ?_
      rintro ⟨defect, hrefused⟩
      cases hline.symm.trans (ofLine_eq_error_iff.mpr ⟨defect, hrefused, rfl⟩)

/-- The rules of a source are those that its lines hold, with the numbers of the lines. -/
theorem mem_ofLines_iff (h : ofLines source number lines = .ok found) {rule : Rule} :
    rule ∈ found ↔ ∃ i raw, lines[i]? = some raw ∧ Holds raw rule.level rule.element ∧
      rule.line = number + i := by
  induction lines generalizing number found with
  | nil =>
      obtain rfl := Except.ok.inj h
      simp
  | cons first lines ih =>
      rw [ofLines_cons] at h
      obtain ⟨here, further, hhere, hfurther, rfl⟩ := Outcome.followedBy_eq_ok h
      rw [List.mem_append, mem_ofLine_iff hhere, ih hfurther]
      constructor
      · rintro (⟨hholds, hline⟩ | ⟨i, raw, hraw, hholds, hline⟩)
        · exact ⟨0, first, rfl, hholds, hline⟩
        · exact ⟨i + 1, raw, hraw, hholds, by omega⟩
      · rintro ⟨i, raw, hraw, hholds, hline⟩
        cases i with
        | zero =>
            obtain rfl := Option.some.inj hraw
            exact .inl ⟨hholds, hline⟩
        | succ i => exact .inr ⟨i, raw, hraw, hholds, by omega⟩

/-- The rules of a source stand on lines with increasing numbers. -/
theorem pairwise_line_of_ofLines (h : ofLines source number lines = .ok found) :
    found.Pairwise fun a b => a.line < b.line := by
  induction lines generalizing number found with
  | nil =>
      obtain rfl := Except.ok.inj h
      exact .nil
  | cons raw lines ih =>
      rw [ofLines_cons] at h
      obtain ⟨here, further, hhere, hfurther, rfl⟩ := Outcome.followedBy_eq_ok h
      refine List.pairwise_append.mpr ⟨?_, ih hfurther, ?_⟩
      · rcases ofLine_cases source number raw with ⟨_, hline⟩ | ⟨_, _, hline⟩ | ⟨_, _, _, hline⟩
        · obtain rfl := Except.ok.inj (hline.symm.trans hhere)
          exact .nil
        · cases hline.symm.trans hhere
        · obtain rfl := Except.ok.inj (hline.symm.trans hhere)
          exact List.pairwise_singleton _ _
      · intro rule hrule later hlater
        obtain ⟨_, hnumber⟩ := (mem_ofLine_iff hhere).mp hrule
        obtain ⟨i, _, _, _, hlater⟩ := (mem_ofLines_iff hfurther).mp hlater
        omega

/-- A source is refused for the first of its lines that is refused. -/
theorem ofLines_eq_error_iff :
    ofLines source number lines = .error error ↔
      ∃ i raw defect, FirstAt (fun raw => ∃ defect, Refused raw defect) lines i raw ∧
        Refused raw defect ∧ error = ⟨source, number + i, .ofList (trimBlank raw), defect⟩ := by
  induction lines generalizing number with
  | nil =>
      refine iff_of_false nofun ?_
      rintro ⟨_, _, _, hfirst, _⟩
      cases hfirst.getElem?_eq
  | cons first lines ih =>
      rw [ofLines_cons, Outcome.followedBy_eq_error_iff, ofLine_eq_error_iff,
        exists_ofLine_eq_ok_iff, ih]
      constructor
      · rintro (⟨defect, hrefused, rfl⟩ | ⟨hgood, i, raw, defect, hfirst, hrefused, rfl⟩)
        · exact ⟨0, first, defect, FirstAt.cons_iff.mpr (.inl ⟨rfl, rfl, defect, hrefused⟩),
            hrefused, rfl⟩
        · refine ⟨i + 1, raw, defect, FirstAt.cons_iff.mpr (.inr ⟨hgood, i, rfl, hfirst⟩),
            hrefused, ?_⟩
          rw [Nat.add_assoc, Nat.add_comm 1 i]
      · rintro ⟨i, raw, defect, hfirst, hrefused, rfl⟩
        rcases FirstAt.cons_iff.mp hfirst with ⟨rfl, rfl, _⟩ | ⟨hgood, j, rfl, hrest⟩
        · exact .inl ⟨defect, hrefused, rfl⟩
        · refine .inr ⟨hgood, j, raw, defect, hrest, hrefused, ?_⟩
          rw [Nat.add_assoc, Nat.add_comm 1 j]

/-- Whether a source is accepted, and as which rules, is not a matter of its name. -/
theorem ofLines_eq_ok_of_source (other : String) (h : ofLines source number lines = .ok found) :
    ofLines other number lines = .ok found := by
  induction lines generalizing number found with
  | nil => exact h
  | cons raw lines ih =>
      rw [ofLines_cons] at h ⊢
      obtain ⟨here, further, hhere, hfurther, rfl⟩ := Outcome.followedBy_eq_ok h
      have hsame : ofLine other number raw = .ok here := by
        rcases ofLine_cases source number raw with
          ⟨hignored, hline⟩ | ⟨_, _, hline⟩ | ⟨_, _, ⟨hignored, hread⟩, hline⟩
        · exact (ofLine_of_isIgnored other number hignored).trans (hline.symm.trans hhere)
        · cases hline.symm.trans hhere
        · rw [← hhere, hline]
          simp [ofLine, hignored, hread]
      rw [hsame, ih hfurther]
      rfl

end Rule

end AccessWidening
