import AccessWidening.Text.Blank

/-!
Names in rule text: the internal name of a class, and the name of a member.

Both are read as the longest run of admitted characters. The separators of the rule grammar are not
admitted, so the character after a name always ends it.
-/

namespace AccessWidening.Syntax

def isPathChar (c : Char) : Bool :=
  !isBlank c && c ≠ '.' && c ≠ ';' && c ≠ '[' && c ≠ '(' && c ≠ ')'

def isNameChar (c : Char) : Bool := isPathChar c && c ≠ '/'

/-- Whether no segment of a path is empty. -/
def hasFullSegments (path : List Char) : Bool := (path.splitOn '/').all fun segment => segment ≠ []

/-- Reads the longest run of path characters, as a path and what follows it. It is refused if the
run is empty or has an empty segment. -/
def scanPath (cs : List Char) : Option (List Char × List Char) :=
  let path := cs.takeWhile isPathChar
  if hasFullSegments path then some (path, cs.dropWhile isPathChar) else none

def scanName (cs : List Char) : Option (List Char × List Char) :=
  let name := cs.takeWhile isNameChar
  if name ≠ [] then some (name, cs.dropWhile isNameChar) else none

/-- Splits a path at its last slash into an owner and a name. -/
def splitAtLastSlash (path : List Char) : Option (List Char × List Char) :=
  match path.reverse.dropWhile (· ≠ '/') with
  | [] => none
  | _ :: owner => some (owner.reverse, (path.reverse.takeWhile (· ≠ '/')).reverse)

theorem scanPath_eq_some {cs path rest : List Char} (h : scanPath cs = some (path, rest)) :
    cs = path ++ rest := by
  simp only [scanPath, Option.ite_none_right_eq_some, Option.some.injEq, Prod.mk.injEq] at h
  obtain ⟨_, rfl, rfl⟩ := h
  exact List.takeWhile_append_dropWhile.symm

theorem scanName_eq_some {cs name rest : List Char} (h : scanName cs = some (name, rest)) :
    cs = name ++ rest := by
  simp only [scanName, Option.ite_none_right_eq_some, Option.some.injEq, Prod.mk.injEq] at h
  obtain ⟨_, rfl, rfl⟩ := h
  exact List.takeWhile_append_dropWhile.symm

end AccessWidening.Syntax
