import Mathlib.Algebra.Group.Nat.Defs
import AccessWidening.Proofs.Snapshot.Reader

/-!
The encodings that a payload is made of: numbers in four widths, strings and optional strings.

Numbers fit up to 64 bits, and strings if the number of their bytes does. Larger ones are written in
a form that the readers refuse.
-/

namespace AccessWidening

theorem Bytes.toNat_littleEndian (width n : Nat) :
    Bytes.toNat (Bytes.littleEndian width n) = n % 256 ^ width := by
  induction width generalizing n with
  | zero => simp [Bytes.littleEndian, Bytes.toNat, Nat.mod_one]
  | succ width ih =>
      have hbyte : (UInt8.ofNat n).toNat = n % 256 := UInt8.toNat_ofNat'
      have hsplit : n % 256 ^ (width + 1) = n % 256 + 256 * (n / 256 % 256 ^ width) := by
        rw [Nat.pow_succ', Nat.mod_mul]
      simp only [Bytes.littleEndian, Bytes.toNat, ih, hbyte, hsplit]

namespace Wire

/-- Numbers below this bound can be read back. -/
def maxCount : Nat := 0x10000000000000000

theorem inverts_readBytes (taken : Bytes) : Inverts (readBytes taken.length) taken taken True where
  accepts _ rest := by simp [readBytes]
  refuses hnot := absurd trivial hnot

theorem length_writeNumber_pos (n : Nat) : 0 < (writeNumber n).length := by
  unfold writeNumber
  repeat' split
  all_goals exact Nat.succ_pos _

/-- A small number is a byte of its own. -/
theorem inverts_small (widest : Nat) {n : Nat} (hn : n ≤ 250) :
    Inverts (readNumber widest) (writeNumber n) n True where
  accepts _ rest := by
    have hbyte : (UInt8.ofNat n).toNat = n := by
      rw [UInt8.toNat_ofNat']
      omega
    simp [writeNumber, readNumber, hn, hbyte]
  refuses hnot := absurd trivial hnot

/-- A number with a marker that the reader knows is read from the bytes after the marker. -/
theorem inverts_marked {widest width n : Nat} {marker : UInt8} (hlarge : 250 < marker.toNat)
    (hknown : marker.toNat ≤ widest) (hwidth : markerWidth marker.toNat = width)
    (hn : n < 256 ^ width) :
    Inverts (readNumber widest) (marker :: Bytes.littleEndian width n) n True where
  accepts _ rest := by
    have hdigits := (inverts_readBytes (Bytes.littleEndian width n)).accepts trivial rest
    rw [Bytes.length_littleEndian] at hdigits
    rw [List.cons_append]
    simp only [readNumber, Nat.not_le.mpr hlarge, if_false, hknown, if_true, hwidth, hdigits,
      Option.map_some, Bytes.toNat_littleEndian, Nat.mod_eq_of_lt hn]
  refuses hnot := absurd trivial hnot

/-- A number that is not small but fits has one of three markers, and bytes enough after it. -/
theorem writeNumber_marked {n : Nat} (hlarge : ¬ n ≤ 250) (hfits : n < maxCount) :
    ∃ marker width, writeNumber n = marker :: Bytes.littleEndian width n ∧
      250 < marker.toNat ∧ marker.toNat ≤ 253 ∧ markerWidth marker.toNat = width ∧
      n < 256 ^ width := by
  unfold maxCount at hfits
  by_cases h16 : n < 0x10000
  · exact ⟨251, 2, by simp [writeNumber, hlarge, h16], by decide, by decide, rfl, h16⟩
  by_cases h32 : n < 0x100000000
  · exact ⟨252, 4, by simp [writeNumber, hlarge, h16, h32], by decide, by decide, rfl, h32⟩
  · exact ⟨253, 8, by simp [writeNumber, hlarge, h16, h32, hfits], by decide, by decide, rfl,
      hfits⟩

/-- A count is read back if it fits into 64 bits. A larger one has a marker that is refused. -/
theorem inverts_readCount (n : Nat) : Inverts readCount (writeNumber n) n (n < maxCount) := by
  unfold readCount
  by_cases hsmall : n ≤ 250
  · have hfits : n < maxCount := Nat.lt_of_le_of_lt hsmall (by decide)
    exact (inverts_small 253 hsmall).congr (by simp [hfits])
  by_cases hfits : n < maxCount
  · obtain ⟨marker, width, hwritten, hmarker, hknown, hwidth, hn⟩ :=
      writeNumber_marked hsmall hfits
    rw [hwritten]
    exact (inverts_marked hmarker hknown hwidth hn).congr (by simp [hfits])
  · have hwritten : writeNumber n = 254 :: Bytes.littleEndian 16 n := by
      unfold maxCount at hfits
      have h16 : ¬ n < 0x10000 := by omega
      have h32 : ¬ n < 0x100000000 := by omega
      simp [writeNumber, hsmall, h16, h32, hfits]
    rw [hwritten]
    exact ⟨fun h => absurd h hfits, fun _ rest => by simp [readNumber]⟩

def Short (s : String) : Prop := (Bytes.ofString s).length < maxCount

theorem inverts_readString (s : String) : Inverts readString (writeString s) s (Short s) := by
  have hwritten : writeString s =
      writeNumber (Bytes.ofString s).length ++ (Bytes.ofString s ++ []) := by
    rw [List.append_nil]
    rfl
  rw [hwritten]
  unfold readString
  have hfits : (Bytes.ofString s).length < maxCount ∧ True ∧ True ↔ Short s := by simp [Short]
  refine ((inverts_readCount _).bind ((inverts_readBytes _).bind ?_)).congr hfits
  simp only [Bytes.toString?_ofString]
  exact Inverts.pure s

theorem inverts_readOptional (value : Option String) :
    Inverts readOptional (writeOptional value) value (∀ s ∈ value, Short s) := by
  cases value with
  | none => exact (⟨fun _ _ => rfl, fun hnot => absurd (by simp) hnot⟩)
  | some s =>
      have hstring := inverts_readString s
      constructor
      · intro hfits rest
        have hread := hstring.accepts (hfits s rfl) rest
        simp only [writeOptional, List.cons_append, readOptional, hread, Option.map_some]
      · intro hnot rest
        have hread := hstring.refuses (fun hfits => hnot (by simp [hfits])) rest
        simp only [writeOptional, List.cons_append, readOptional, hread, Option.map_none]

end Wire

end AccessWidening
