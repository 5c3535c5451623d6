import AccessWidening.RuleSet.Basic
import AccessWidening.Snapshot.Wire

/-!
The payload of a snapshot: the number of classes, and the entries of a rule set.

A payload says more than the set it was written from: the number of classes and the absence of
repeated elements can be checked when the set is restored.
-/

namespace AccessWidening

/-- The alternatives of an element by number: class, field, method. -/
def Element.write : Element → Bytes
  | classItself name => Wire.writeNumber 0 ++ Wire.writeString name
  | field owner name descriptor =>
    Wire.writeNumber 1 ++ Wire.writeString owner ++ Wire.writeString name ++
      Wire.writeOptional descriptor
  | method owner name descriptor =>
    Wire.writeNumber 2 ++ Wire.writeString owner ++ Wire.writeString name ++
      Wire.writeString descriptor

def Element.read (bytes : Bytes) : Option (Element × Bytes) := do
  let (variant, bytes) ← Wire.readVariant bytes
  let (owner, bytes) ← Wire.readString bytes
  match variant with
  | 0 => return (classItself owner, bytes)
  | 1 =>
    let (name, bytes) ← Wire.readString bytes
    let (descriptor, bytes) ← Wire.readOptional bytes
    return (field owner name descriptor, bytes)
  | 2 =>
    let (name, bytes) ← Wire.readString bytes
    let (descriptor, bytes) ← Wire.readString bytes
    return (method owner name descriptor, bytes)
  | _ => none

def Visibility.ofRank? : Nat → Option Visibility
  | 0 => some .priv
  | 1 => some .package
  | 2 => some .prot
  | 3 => some .pub
  | _ => none

def Finality.ofRank? : Nat → Option Finality
  | 0 => some .unstated
  | 1 => some .addFinal
  | 2 => some .dropFinal
  | _ => none

/-- Writes a level as its visibility and its finality request, each by its rank. -/
def Level.write (level : Level) : Bytes :=
  Wire.writeNumber level.visibility.rank ++ Wire.writeNumber level.finality.rank

def Level.read (bytes : Bytes) : Option (Level × Bytes) := do
  let (rank, bytes) ← Wire.readVariant bytes
  let visibility ← Visibility.ofRank? rank
  let (rank, bytes) ← Wire.readVariant bytes
  let finality ← Finality.ofRank? rank
  return (⟨visibility, finality⟩, bytes)

structure Payload where
  classCount : Nat
  entries : List (Element × Level)
  deriving DecidableEq

namespace Payload

def writeEntries (entries : List (Element × Level)) : Bytes :=
  entries.flatMap fun entry => entry.1.write ++ entry.2.write

def readEntries : Nat → Bytes → Option (List (Element × Level) × Bytes)
  | 0, bytes => some ([], bytes)
  | count + 1, bytes => do
    let (element, bytes) ← Element.read bytes
    let (level, bytes) ← Level.read bytes
    let (entries, rest) ← readEntries count bytes
    return ((element, level) :: entries, rest)

def write (payload : Payload) : Bytes :=
  Wire.writeNumber payload.classCount ++ Wire.writeNumber payload.entries.length ++
    writeEntries payload.entries

/-- Reads a payload. Bytes after the last entry are left over. -/
def read (bytes : Bytes) : Option (Payload × Bytes) := do
  let (classCount, bytes) ← Wire.readCount bytes
  let (count, bytes) ← Wire.readCount bytes
  let (entries, rest) ← readEntries count bytes
  return (⟨classCount, entries⟩, rest)

end Payload

def RuleSet.payload (rules : RuleSet) : Payload := ⟨rules.classCount, rules.entries⟩

end AccessWidening
