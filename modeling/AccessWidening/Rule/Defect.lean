/-!
What can be wrong with rule text, and how it is reported.
-/

namespace AccessWidening

inductive Defect where
  /-- The line does not start with an access word. -/
  | accessWord
  /-- No space or tab follows the access word and its finality mark. -/
  | blankAfterAccess
  /-- No class path stands where one must. -/
  | className
  /-- No member name follows a dot. -/
  | memberName
  /-- No descriptor follows a target and blanks. -/
  | descriptor
  /-- What should be a descriptor sets out to name a class, but no class path follows. -/
  | descriptorClassName
  /-- A descriptor follows a path that is too short to hold an owner and a name. -/
  | ownerBeforeDescriptor
  /-- Something follows a complete rule. -/
  | endOfLine
  /-- Something follows a complete access token. -/
  | endOfToken
  deriving DecidableEq

def Defect.detail : Defect → String
  | accessWord => "expected access token (public, protected, default, private)"
  | blankAfterAccess => "expected whitespace after access token"
  | className => "expected internal class name"
  | memberName => "expected member name"
  | descriptor => "expected type descriptor"
  | descriptorClassName => "expected internal class name, type descriptor"
  | ownerBeforeDescriptor => "expected owner/name before descriptor"
  | endOfLine => "expected end of line"
  | endOfToken => "expected end of access token"

theorem Defect.detail_injective {a b : Defect} (h : a.detail = b.detail) : a = b := by
  cases a <;> cases b <;> simp [detail] at h ⊢

/-- A defect with the place where it was found: the name of the source, the number of the line
counted from one, and the trimmed line. -/
structure SourceError where
  source : String
  line : Nat
  text : String
  defect : Defect
  deriving DecidableEq

def SourceError.message (error : SourceError) : String :=
  "parse error in " ++ error.source ++ " at line " ++ toString error.line ++ ": " ++
    error.defect.detail ++ " (`" ++ error.text ++ "`)"

end AccessWidening
