import AccessWidening.Rule.Line

/-!
Rule text: a source of rules, one on a line.

Lines are trimmed of blanks first. Empty lines and lines that start with `#` hold no rule. A source
is accepted as a whole or refused for its first bad line.
-/

namespace AccessWidening

open Syntax

/-- A rule with the number of its line, counted from one. -/
structure Rule where
  line : Nat
  level : Level
  element : Element
  deriving DecidableEq

namespace Rule

def isIgnored : List Char → Bool
  | [] => true
  | c :: _ => c = '#'

/-- Reads the lines of a source, the first of which has the given number. -/
def ofLines (source : String) (number : Nat) : List (List Char) → Except SourceError (List Rule)
  | [] => .ok []
  | raw :: lines =>
    let text := trimBlank raw
    if isIgnored text then ofLines source (number + 1) lines
    else
      match readRule text with
      | .error defect => .error ⟨source, number, .ofList text, defect⟩
      | .ok (level, element) =>
        (ofLines source (number + 1) lines).map (⟨number, level, element⟩ :: ·)

def ofText (source text : String) : Except SourceError (List Rule) :=
  ofLines source 1 (textLines text.toList)

end Rule

/-- Reads an access token that stands alone, with blanks around it. -/
def Level.ofToken (token : String) : Except SourceError Level :=
  let text := trimBlank token.toList
  match readToken text with
  | .ok level => .ok level
  | .error defect => .error ⟨"<token>", 1, .ofList text, defect⟩

end AccessWidening
