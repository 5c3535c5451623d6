import AccessWidening.Proofs.First
import AccessWidening.Proofs.Rule.Places

/-!
What is required of a rule line, each requirement as a condition on the text of the line and with
the wording for a line that misses it, and which of them a line misses first.
-/

namespace AccessWidening.Grammar

open Syntax

/-- Where the target of a line begins: behind the access token and blanks. -/
def TargetAt (cs target : List Char) : Prop :=
  ∃ after, FollowsToken cs after ∧ FollowsBlanks after target

/-- How a target is named: by the path that it begins with, or, if a dot is behind that path, by
the path and what follows the dot. Behind the name stands the rest of the line. -/
inductive NamedBy (cs : List Char) : List Char → Option (List Char) → List Char → Prop where
  | path {target path rest : List Char} (begins : TargetAt cs target)
      (run : LongestRun isPathChar target path rest) (undotted : rest.head? ≠ some '.') :
      NamedBy cs path none rest
  | member {target path after name rest : List Char} (begins : TargetAt cs target)
      (run : LongestRun isPathChar target path ('.' :: after))
      (further : LongestRun isNameChar after name rest) : NamedBy cs path (some name) rest

/-- What is left of a line behind the name of its target, and behind the descriptor if there are
blanks before one. -/
def LeftOver (rest left : List Char) : Prop :=
  Stops isSeparator rest ∧ left = rest ∨ FollowsDescriptor rest left

inductive Requirement where
  | accessWord
  | blankAfterAccess
  | className
  | memberName
  | descriptor
  | ownerBeforeDescriptor
  | endOfLine
  deriving DecidableEq

/-- Every requirement, in the order in which a line is read. -/
def Requirement.all : List Requirement :=
  [accessWord, blankAfterAccess, className, memberName, descriptor, ownerBeforeDescriptor,
    endOfLine]

theorem Requirement.mem_all (requirement : Requirement) : requirement ∈ all := by
  cases requirement <;> decide

/-- Whether a line misses a requirement, and the wording for it. -/
def Misses (cs : List Char) : Requirement → String → Prop
  | .accessWord, detail =>
    (∀ v : Visibility, ¬ v.word.toList <+: cs) ∧
      detail = "expected access token (public, protected, default, private)"
  | .blankAfterAccess, detail =>
    (∃ after, FollowsToken cs after ∧ Stops isSeparator after) ∧
      detail = "expected whitespace after access token"
  | .className, detail =>
    (∃ target path rest, TargetAt cs target ∧ LongestRun isPathChar target path rest ∧
      Broken path) ∧ detail = "expected internal class name"
  | .memberName, detail =>
    (∃ target path after rest, TargetAt cs target ∧
      LongestRun isPathChar target path ('.' :: after) ∧ LongestRun isNameChar after [] rest) ∧
      detail = "expected member name"
  | .descriptor, detail =>
    ∃ path name rest behind, NamedBy cs path name rest ∧ LacksDescriptor rest behind ∧
      (BeginsBrokenClass behind ∧ detail = "expected internal class name, type descriptor" ∨
        ¬ BeginsBrokenClass behind ∧ detail = "expected type descriptor")
  | .ownerBeforeDescriptor, detail =>
    (∃ path rest left, NamedBy cs path none rest ∧ FollowsDescriptor rest left ∧ '/' ∉ path) ∧
      detail = "expected owner/name before descriptor"
  | .endOfLine, detail =>
    (∃ path name rest left, NamedBy cs path name rest ∧ LeftOver rest left ∧ left ≠ []) ∧
      detail = "expected end of line"

/-- Whether `detail` is the wording for the first of some requirements that a line misses. -/
def MissesFirst (cs : List Char) (requirements : List Requirement) (detail : String) : Prop :=
  ∃ i requirement, FirstAt (fun requirement => ∃ detail, Misses cs requirement detail)
    requirements i requirement ∧ Misses cs requirement detail

variable {cs : List Char} {requirement : Requirement} {requirements : List Requirement}
  {detail : String}

theorem missesFirst_of_misses (h : ∃ detail, Misses cs requirement detail) :
    MissesFirst cs (requirement :: requirements) detail ↔ Misses cs requirement detail := by
  rw [MissesFirst, FirstAt.exists_cons_iff]
  exact or_iff_left fun hlater => hlater.1 h

theorem missesFirst_of_not_misses (h : ∀ detail, ¬ Misses cs requirement detail) :
    MissesFirst cs (requirement :: requirements) detail ↔ MissesFirst cs requirements detail := by
  rw [MissesFirst, FirstAt.exists_cons_iff, or_iff_right (h detail),
    and_iff_right (not_exists.mpr h)]
  rfl

theorem missesFirst_singleton :
    MissesFirst cs [requirement] detail ↔ Misses cs requirement detail := by
  rw [MissesFirst, FirstAt.exists_cons_iff]
  refine or_iff_left ?_
  rintro ⟨-, _, _, hfirst, -⟩
  exact List.not_mem_nil hfirst.mem

end AccessWidening.Grammar
