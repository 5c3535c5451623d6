import AccessWidening.Access.Level
import AccessWidening.Element.Basic
import AccessWidening.Rule.Defect
import AccessWidening.Rule.Descriptor

/-!
One line of rule text: an access token, blanks, and the target that it is about.

A target is a class path; a path, a dot and a member name; or one of these followed by blanks and a
descriptor, where an undotted path is split at its last slash. Each reader returns what it read and
what follows it, or the first defect it met.
-/

namespace AccessWidening.Syntax

def isSeparator (c : Char) : Bool := c = ' ' ∨ c = '\t'

def readVisibility (cs : List Char) : Except Defect (Visibility × List Char) :=
  let words : List Visibility := [.pub, .prot, .package, .priv]
  match words.find? fun v => v.word.toList.isPrefixOf cs with
  | some v => .ok (v, cs.drop v.word.toList.length)
  | none => .error .accessWord

/-- Reads a finality mark. Without one, nothing is stated and nothing is read. -/
def readFinality : List Char → Finality × List Char
  | '+' :: 'f' :: rest => (.addFinal, rest)
  | '-' :: 'f' :: rest => (.dropFinal, rest)
  | cs => (.unstated, cs)

def readLevel (cs : List Char) : Except Defect (Level × List Char) := do
  let (visibility, cs) ← readVisibility cs
  let (finality, cs) := readFinality cs
  return (⟨visibility, finality⟩, cs)

def readSeparators : List Char → Except Defect (List Char)
  | [] => .error .blankAfterAccess
  | c :: cs => if isSeparator c then .ok (cs.dropWhile isSeparator) else .error .blankAfterAccess

/-- Reads separators and a descriptor. Without separators there is no descriptor; after them there
must be one. -/
def readDescriptor (cs : List Char) :
    Except Defect (Option (DescriptorKind × List Char) × List Char) :=
  match readSeparators cs with
  | .error _ => .ok (none, cs)
  | .ok cs =>
    match scanDescriptor cs with
    | some (kind, text, rest) => .ok (some (kind, text), rest)
    | none => .error (if namesBadClass cs then .descriptorClassName else .descriptor)

/-- The member of a class with a name and, where there is one, a descriptor. Without a descriptor it
is a field. -/
def memberElement (owner name : List Char) : Option (DescriptorKind × List Char) → Element
  | none => .field (.ofList owner) (.ofList name) none
  | some (.field, text) => .field (.ofList owner) (.ofList name) (some (.ofList text))
  | some (.method, text) => .method (.ofList owner) (.ofList name) (.ofList text)

def readTarget (cs : List Char) : Except Defect (Element × List Char) :=
  match scanPath cs with
  | none => .error .className
  | some (path, '.' :: cs) =>
    match scanName cs with
    | none => .error .memberName
    | some (name, cs) => do
      let (descriptor, cs) ← readDescriptor cs
      return (memberElement path name descriptor, cs)
  | some (path, cs) => do
    match ← readDescriptor cs with
    | (none, cs) => return (.classItself (.ofList path), cs)
    | (some descriptor, cs) =>
      match splitAtLastSlash path with
      | some (owner, name) => return (memberElement owner name (some descriptor), cs)
      | none => throw .ownerBeforeDescriptor

def readRule (cs : List Char) : Except Defect (Level × Element) := do
  let (level, cs) ← readLevel cs
  let cs ← readSeparators cs
  let (element, cs) ← readTarget cs
  if cs.isEmpty then return (level, element) else throw .endOfLine

def readToken (cs : List Char) : Except Defect Level := do
  let (level, cs) ← readLevel cs
  if cs.isEmpty then return level else throw .endOfToken

end AccessWidening.Syntax
