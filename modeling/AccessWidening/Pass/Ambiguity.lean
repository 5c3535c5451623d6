import AccessWidening.ClassDecl
import AccessWidening.RuleSet.Bucket

/-!
Ambiguous field rules: a rule that names a field without its descriptor, for a class that declares
several fields of that name.
-/

namespace AccessWidening

/-- A field name that a rule leaves open, with the descriptors it may mean. -/
structure AmbiguousField where
  className : String
  name : String
  candidates : List String
  deriving DecidableEq

def AmbiguousField.message (a : AmbiguousField) : String :=
  "ambiguous field rule '" ++ a.className ++ "." ++ a.name ++ "': matches descriptors [" ++
    ", ".intercalate a.candidates ++ "]; add a descriptor"

def ClassDecl.fieldDescriptors (decl : ClassDecl) (name : String) : List String :=
  (decl.fields.filter (·.name = name)).map Member.descriptor

def Element.openFieldName? : Element → Option String
  | field _ name none => some name
  | _ => none

/-- The first field name, in the order of the rules, that a bucket leaves open in a class. -/
def Bucket.ambiguity? (bucket : Bucket) (decl : ClassDecl) : Option AmbiguousField :=
  (bucket.remaining.filterMap Element.openFieldName?).findSome? fun name =>
    let candidates := decl.fieldDescriptors name
    if candidates.length > 1 then some ⟨decl.name, name, candidates⟩ else none

end AccessWidening
