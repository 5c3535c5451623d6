import AccessWidening.Rule.Line

/-!
The grammar of rule lines.

Its sentences are written down from trees. A tree carries what makes it one: a name is not empty and
has no delimiter in it, a path has a segment, blanks are there. So every tree is the reading of a
line, and what a line means is read off its tree.
-/

namespace AccessWidening.Grammar

def delimiters : List Char := ['.', ';', '[', '/', '(', ')']

def primitives : List Char := ['B', 'C', 'D', 'F', 'I', 'J', 'S', 'Z']

/-- A name: one or more characters that are neither blank nor delimiters. -/
@[ext]
structure Segment where
  chars : List Char
  nonempty : chars ≠ []
  admitted : ∀ c ∈ chars, isBlank c = false ∧ c ∉ delimiters

/-- A class path: names with slashes between them. -/
@[ext]
structure Path where
  first : Segment
  more : List Segment

@[ext]
structure Blanks where
  chars : List Char
  nonempty : chars ≠ []
  admitted : ∀ c ∈ chars, c = ' ' ∨ c = '\t'

inductive FieldType where
  | primitive (letter : Char) (known : letter ∈ primitives)
  | object (path : Path)
  | array (item : FieldType)

/-- A method type. Without a result type, nothing is returned. -/
structure MethodType where
  parameters : List FieldType
  result : Option FieldType

inductive Descriptor where
  | field (type : FieldType)
  | method (type : MethodType)

/-- The four forms of a target: a class, a field by its name alone, and a member with a descriptor,
whose name follows a dot or a slash. -/
inductive Target where
  | classItself (path : Path)
  | byName (owner : Path) (name : Segment)
  | dotted (owner : Path) (name : Segment) (blanks : Blanks) (descriptor : Descriptor)
  | slashed (owner : Path) (name : Segment) (blanks : Blanks) (descriptor : Descriptor)

structure Line where
  level : Level
  blanks : Blanks
  target : Target

/-! ## The text of a tree -/

def Path.text (path : Path) : List Char :=
  path.first.chars ++ path.more.flatMap fun name => '/' :: name.chars

def FieldType.text : FieldType → List Char
  | primitive letter _ => [letter]
  | object path => 'L' :: path.text ++ [';']
  | array item => '[' :: item.text

def MethodType.resultText (type : MethodType) : List Char :=
  match type.result with
  | none => ['V']
  | some result => result.text

def MethodType.text (type : MethodType) : List Char :=
  '(' :: type.parameters.flatMap FieldType.text ++ ')' :: type.resultText

def Descriptor.text : Descriptor → List Char
  | field type => type.text
  | method type => type.text

def Target.text : Target → List Char
  | classItself path => path.text
  | byName owner name => owner.text ++ '.' :: name.chars
  | dotted owner name blanks descriptor =>
    owner.text ++ '.' :: name.chars ++ blanks.chars ++ descriptor.text
  | slashed owner name blanks descriptor =>
    owner.text ++ '/' :: name.chars ++ blanks.chars ++ descriptor.text

def Line.text (line : Line) : List Char :=
  line.level.text.toList ++ line.blanks.chars ++ line.target.text

/-! ## The meaning of a tree -/

/-- A member with a field type is a field, and one with a method type is a method. -/
def Descriptor.element (owner : Path) (name : Segment) (descriptor : Descriptor) : Element :=
  match descriptor with
  | field type =>
    .field (.ofList owner.text) (.ofList name.chars) (some (.ofList type.text))
  | method type => .method (.ofList owner.text) (.ofList name.chars) (.ofList type.text)

def Target.element : Target → Element
  | classItself path => .classItself (.ofList path.text)
  | byName owner name => .field (.ofList owner.text) (.ofList name.chars) none
  | dotted owner name _ descriptor => descriptor.element owner name
  | slashed owner name _ descriptor => descriptor.element owner name

end AccessWidening.Grammar
