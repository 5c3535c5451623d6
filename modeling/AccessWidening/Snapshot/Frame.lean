import AccessWidening.Digest.Blake3
import AccessWidening.Snapshot.Payload

/-!
Snapshots: rule sets as sequences of bytes.

A snapshot is a header of 32 bytes and a payload. The header holds the magic bytes, the format
version, the size of the payload and the beginning of its hash; its remaining bytes are written as
zeros and not looked at. `RuleSet.ofSnapshot` checks these one after another, and reports the first
check that fails.
-/

namespace AccessWidening

inductive SnapshotError where
  /-- The bytes do not start with the magic bytes. -/
  | badMagic
  /-- The snapshot has another format version. -/
  | incompatibleVersion (found : Nat)
  /-- The payload does not have the hash that the header states. -/
  | checksumMismatch
  /-- There are fewer bytes than the header needs or states. -/
  | lengthMismatch (expected actual : Nat)
  /-- The payload cannot be read. -/
  | undecodable
  /-- The entries do not belong to the stated number of classes. -/
  | classCount (stated rebuilt : Nat)
  /-- An element has several entries. -/
  | duplicateEntries
  deriving DecidableEq

namespace Snapshot

def headerSize : Nat := 32

def magic : Bytes := [0x41, 0x54, 0x53, 0x4E]

def version : Nat := 1

/-- The part of a payload's hash that a header holds. -/
def checksum (payload : Bytes) : Bytes := (Blake3.hash payload).take 16

/-- The header of a payload. The size has room for 32 bits, and is reduced to them. -/
def header (payload : Bytes) : Bytes :=
  magic ++ Bytes.littleEndian 2 version ++ Bytes.littleEndian 2 0 ++
    Bytes.littleEndian 4 payload.length ++ checksum payload ++ Bytes.littleEndian 4 0

def slice (bytes : Bytes) (start size : Nat) : Bytes := (bytes.drop start).take size

/-- Checks the header of a snapshot, and cuts out the payload that it describes. -/
def payloadOf (bytes : Bytes) : Except SnapshotError Bytes :=
  let found := Bytes.toNat (slice bytes 4 2)
  let size := Bytes.toNat (slice bytes 8 4)
  let payload := slice bytes headerSize size
  if bytes.length < headerSize then .error (.lengthMismatch headerSize bytes.length)
  else if slice bytes 0 4 ≠ magic then .error .badMagic
  else if found ≠ version then .error (.incompatibleVersion found)
  else if bytes.length < headerSize + size then
    .error (.lengthMismatch size (bytes.length - headerSize))
  else if checksum payload ≠ slice bytes 12 16 then .error .checksumMismatch
  else .ok payload

end Snapshot

def SnapshotError.message : SnapshotError → String
  | badMagic => "not an access transformer snapshot: invalid magic bytes"
  | incompatibleVersion found =>
    "incompatible format version: blob is v" ++ toString found ++ ", engine supports v" ++
      toString Snapshot.version
  | checksumMismatch => "integrity check failed: BLAKE3 checksum mismatch"
  | lengthMismatch expected actual =>
    "payload length mismatch: expected " ++ toString expected ++ " bytes, got " ++ toString actual
  | undecodable => "failed to decode payload"
  | classCount stated rebuilt =>
    "validation failed: expected " ++ toString stated ++ " classes, rebuilt " ++ toString rebuilt
  | duplicateEntries => "validation failed: duplicate entries in payload"

/-- The rule set that a payload describes, if its class count and its entries agree. -/
def Payload.restore (payload : Payload) : Except SnapshotError RuleSet :=
  let rules := RuleSet.empty.requestAll payload.entries
  if rules.classCount ≠ payload.classCount then
    .error (.classCount payload.classCount rules.classCount)
  else if rules.entries.length ≠ payload.entries.length then .error .duplicateEntries
  else .ok rules

namespace RuleSet

def toSnapshot (rules : RuleSet) : Bytes :=
  let payload := rules.payload.write
  Snapshot.header payload ++ payload

def ofSnapshot (bytes : Bytes) : Except SnapshotError RuleSet := do
  let payload ← Snapshot.payloadOf bytes
  match Payload.read payload with
  | none => throw .undecodable
  | some (content, _) => content.restore

end RuleSet

end AccessWidening
