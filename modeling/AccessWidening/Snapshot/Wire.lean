import AccessWidening.Bytes

/-!
The encoding of numbers and strings in a snapshot payload.

A number up to 250 is one byte. Larger ones are a marker and a fixed number of little-endian bytes,
and the writer takes the least width that suffices. A reader is told the widest marker that it may
meet, and accepts a wider form than needed up to that one. Readers return what they read and the
bytes after it, or nothing if the bytes do not begin with such an encoding.
-/

namespace AccessWidening.Wire

/-- Writes a number in its shortest form. -/
def writeNumber (n : Nat) : Bytes :=
  if n ≤ 250 then [UInt8.ofNat n]
  else if n < 0x10000 then 251 :: Bytes.littleEndian 2 n
  else if n < 0x100000000 then 252 :: Bytes.littleEndian 4 n
  else if n < 0x10000000000000000 then 253 :: Bytes.littleEndian 8 n
  else 254 :: Bytes.littleEndian 16 n

def readBytes (count : Nat) (bytes : Bytes) : Option (Bytes × Bytes) :=
  let taken := bytes.take count
  if taken.length = count then some (taken, bytes.drop count) else none

/-- The number of bytes that follow a marker. -/
def markerWidth : Nat → Nat
  | 251 => 2
  | 252 => 4
  | _ => 8

/-- Reads a number that is one byte, or has a marker up to the given one. -/
def readNumber (widest : Nat) : Bytes → Option (Nat × Bytes)
  | [] => none
  | first :: bytes =>
    if first.toNat ≤ 250 then some (first.toNat, bytes)
    else if first.toNat ≤ widest then
      (readBytes (markerWidth first.toNat) bytes).map fun (digits, rest) =>
        (Bytes.toNat digits, rest)
    else none

/-- Reads a count or a length, a number of at most 64 bits. -/
def readCount : Bytes → Option (Nat × Bytes) := readNumber 253

/-- Reads the number of an alternative, a number of at most 32 bits. -/
def readVariant : Bytes → Option (Nat × Bytes) := readNumber 252

/-- Writes a string as the number of its bytes and its UTF-8 form. -/
def writeString (s : String) : Bytes :=
  let bytes := Bytes.ofString s
  writeNumber bytes.length ++ bytes

def readString (bytes : Bytes) : Option (String × Bytes) := do
  let (size, bytes) ← readCount bytes
  let (text, rest) ← readBytes size bytes
  let s ← Bytes.toString? text
  return (s, rest)

def writeOptional : Option String → Bytes
  | none => [0]
  | some s => 1 :: writeString s

def readOptional : Bytes → Option (Option String × Bytes)
  | 0 :: bytes => some (none, bytes)
  | 1 :: bytes => (readString bytes).map fun (s, rest) => (some s, rest)
  | _ => none

end AccessWidening.Wire
