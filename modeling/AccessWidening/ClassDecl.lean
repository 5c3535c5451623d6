import AccessWidening.Access.Flags

/-!
Class declarations: the part of a compiled class that access rules can reach.
-/

namespace AccessWidening

structure Member where
  name : String
  descriptor : String
  access : Flags
  deriving DecidableEq

/-- A class with its fields and methods in the order of their declaration. -/
structure ClassDecl where
  name : String
  access : Flags
  fields : List Member
  methods : List Member
  deriving DecidableEq

def Member.widen (m : Member) : Option Level → Member
  | none => m
  | some level => { m with access := m.access.widen level }

end AccessWidening
