import AccessWidening.RuleSet.Load
import AccessWidening.Snapshot.Frame

/-!
A folder of files that rule text is loaded from and snapshots are kept in.

Files are named within the folder, and the name `.` stands for the folder itself, which is no file.
-/

namespace AccessWidening

inductive FileError where
  | notFound
  | isDirectory
  | notUtf8
  deriving DecidableEq

def FileError.message : FileError → String
  | notFound => "No such file or directory (os error 2)"
  | isDirectory => "Is a directory (os error 21)"
  | notUtf8 => "stream did not contain valid UTF-8"

/-- Files by name, the latest written first. -/
structure Folder where
  files : List (String × Bytes)

namespace Folder

def empty : Folder := ⟨[]⟩

def read (folder : Folder) (name : String) : Except FileError Bytes :=
  if name = "." then .error .isDirectory
  else
    match folder.files.lookup name with
    | some content => .ok content
    | none => .error .notFound

def write (folder : Folder) (name : String) (content : Bytes) : Except FileError Folder :=
  if name = "." then .error .isDirectory
  else .ok ⟨(name, content) :: folder.files.filter (·.1 ≠ name)⟩

end Folder

inductive LoadError where
  | file (error : FileError)
  | source (error : SourceError)

def LoadError.message : LoadError → String
  | file error => error.message
  | source error => error.message

inductive RestoreError where
  | file (error : FileError)
  | snapshot (error : SnapshotError)

def RestoreError.message : RestoreError → String
  | file error => "I/O error during deserialization: " ++ error.message
  | snapshot error => error.message

/-- The wording of an error that kept a snapshot from being saved. -/
def FileError.saveMessage (error : FileError) : String :=
  "I/O error during serialization: " ++ error.message

namespace RuleSet

/-- Adds all rules of a file, whose name is that of the source. -/
def addFile (rules : RuleSet) (folder : Folder) (name : String) : Except LoadError Loaded := do
  let bytes ← (folder.read name).mapError .file
  match Bytes.toString? bytes with
  | none => throw (.file .notUtf8)
  | some text => (rules.addText name text).mapError .source

def save (rules : RuleSet) (folder : Folder) (name : String) : Except FileError Folder :=
  folder.write name rules.toSnapshot

def load (folder : Folder) (name : String) : Except RestoreError RuleSet := do
  let bytes ← (folder.read name).mapError .file
  (ofSnapshot bytes).mapError .snapshot

end RuleSet

end AccessWidening
