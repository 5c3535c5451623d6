/-!
What a rule can name: a class, a field or a method.

A field may be named without its descriptor, and then means the one field of that name. Names are
arbitrary strings; the restrictions on them belong to rule text, not to elements.
-/

namespace AccessWidening

/-- A class, or a member of one. The owner of a member is the internal name of its class. -/
inductive Element where
  | classItself (name : String)
  | field (owner name : String) (descriptor : Option String)
  | method (owner name descriptor : String)
  deriving DecidableEq

namespace Element

/-- The three kinds of elements, in the order in which elements are listed. -/
inductive Kind where
  | classItself
  | field
  | method
  deriving DecidableEq

def Kind.rank : Kind → Nat
  | classItself => 0
  | field => 1
  | method => 2

def kind : Element → Kind
  | classItself _ => .classItself
  | field .. => .field
  | method .. => .method

def owner : Element → String
  | classItself name => name
  | field owner .. => owner
  | method owner .. => owner

/-- The name of a member in its class. A class has none there. -/
def memberName : Element → String
  | classItself _ => ""
  | field _ name _ => name
  | method _ name _ => name

def descriptor? : Element → Option String
  | classItself _ => none
  | field _ _ descriptor => descriptor
  | method _ _ descriptor => some descriptor

def isMember : Element → Bool
  | classItself _ => false
  | field .. => true
  | method .. => true

def text : Element → String
  | classItself name => name
  | field owner name none => owner ++ "." ++ name
  | field owner name (some descriptor) => owner ++ "/" ++ name ++ " " ++ descriptor
  | method owner name descriptor => owner ++ "/" ++ name ++ " " ++ descriptor

def listText (elements : List Element) : String := ", ".intercalate (elements.map text)

/-- An element is determined by its kind, owner, member name and descriptor. -/
theorem eq_of_parts {a b : Element} (hkind : a.kind = b.kind) (howner : a.owner = b.owner)
    (hname : a.memberName = b.memberName) (hdescriptor : a.descriptor? = b.descriptor?) :
    a = b := by
  cases a <;> cases b <;> simp_all [kind, owner, memberName, descriptor?]

end Element

end AccessWidening
