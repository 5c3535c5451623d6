import AccessWidening.Element.Order
import AccessWidening.Access.Level
import Std.Data.HashMap

/-!
The rules for one class, kept by what they name: the class itself, its fields and its methods.

Rules for members are found by hashing. How a hash map lists its entries is nobody's business, so
every list that leaves this module is sorted first.
-/

namespace AccessWidening

deriving instance Hashable for Element

def sortEntries (entries : List (Element × Level)) : List (Element × Level) :=
  entries.mergeSort fun a b => Element.order a.1 b.1 ≠ .gt

structure ClassRules where
  owner : String
  access : Option Level
  methods : Std.HashMap Element Level
  fields : Std.HashMap Element Level

namespace ClassRules

def empty (owner : String) : ClassRules := ⟨owner, none, ∅, ∅⟩

def addAccess (bucket : ClassRules) (level : Level) : ClassRules :=
  { bucket with access := some (Level.joinHeld bucket.access level) }

/-- Joins a level into what is held for an element, which must belong to the class. -/
def add (bucket : ClassRules) (e : Element) (level : Level) : ClassRules :=
  match e with
  | .classItself _ => bucket.addAccess level
  | .field .. =>
    { bucket with fields := bucket.fields.insert e (Level.joinHeld bucket.fields[e]? level) }
  | .method .. =>
    { bucket with methods := bucket.methods.insert e (Level.joinHeld bucket.methods[e]? level) }

def addAll (bucket : ClassRules) (entries : List (Element × Level)) : ClassRules :=
  entries.foldl (fun held entry => held.add entry.1 entry.2) bucket

/-- Folds the rules of another bucket for the same class into this one. -/
def merge (bucket other : ClassRules) : ClassRules :=
  let bucket := match other.access with
    | some level => bucket.addAccess level
    | none => bucket
  bucket.addAll (other.fields.toList ++ other.methods.toList)

/-- Every rule, in no particular order. -/
def requests (bucket : ClassRules) : List (Element × Level) :=
  bucket.access.toList.map (fun level => (.classItself bucket.owner, level)) ++
    bucket.fields.toList ++ bucket.methods.toList

def entries (bucket : ClassRules) : List (Element × Level) := sortEntries bucket.requests

def remaining (bucket : ClassRules) : List Element :=
  Element.sorted (bucket.access.toList.map (fun _ => .classItself bucket.owner) ++
    bucket.fields.keys ++ bucket.methods.keys)

def level? (bucket : ClassRules) (e : Element) : Option Level :=
  if e.owner = bucket.owner then
    match e with
    | .classItself _ => bucket.access
    | .field .. => bucket.fields[e]?
    | .method .. => bucket.methods[e]?
  else none

/-- Buckets are compared by what they hold. -/
instance : BEq ClassRules where
  beq a b := a.owner == b.owner && a.access == b.access && a.methods == b.methods &&
    a.fields == b.fields

end ClassRules

end AccessWidening
