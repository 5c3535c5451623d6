/-!
Bytes: fixed-width little-endian numbers and UTF-8 text.
-/

namespace AccessWidening

abbrev Bytes := List UInt8

namespace Bytes

/-- The `width` lowest bytes of a number, the lowest first. -/
def littleEndian : Nat → Nat → Bytes
  | 0, _ => []
  | width + 1, n => UInt8.ofNat n :: littleEndian width (n / 256)

/-- The number whose bytes are given, the lowest first. -/
def toNat : Bytes → Nat
  | [] => 0
  | b :: rest => b.toNat + 256 * toNat rest

def ofString (s : String) : Bytes := s.toUTF8.data.toList

def toString? (bytes : Bytes) : Option String := String.fromUTF8? ⟨bytes.toArray⟩

@[simp]
theorem length_littleEndian (width n : Nat) : (littleEndian width n).length = width := by
  induction width generalizing n with
  | zero => rfl
  | succ width ih => simp [littleEndian, ih]

@[simp]
theorem toString?_ofString (s : String) : toString? (ofString s) = some s := by
  have valid : (⟨(ofString s).toArray⟩ : ByteArray).IsValidUTF8 := by
    simpa [ofString] using s.isValidUTF8
  rw [toString?, String.fromUTF8?, dif_pos valid]
  simp [String.fromUTF8, ofString]

/-- Only the UTF-8 form of a string reads as that string. -/
theorem toString?_eq_some_iff {bytes : Bytes} {s : String} :
    toString? bytes = some s ↔ bytes = ofString s := by
  constructor
  · intro h
    simp only [toString?, String.fromUTF8?, Option.dite_none_right_eq_some, Option.some.injEq] at h
    obtain ⟨_, rfl⟩ := h
    simp [ofString, String.fromUTF8]
  · rintro rfl
    exact toString?_ofString s

end Bytes

end AccessWidening
