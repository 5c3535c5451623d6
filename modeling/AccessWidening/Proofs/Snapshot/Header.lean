import AccessWidening.Proofs.Snapshot.Primitives
import AccessWidening.Snapshot.Frame

/-!
What is found behind a header that was written for a payload: the bytes that follow, cut to the
size that the header states. The size has 32 bits, so a larger payload is cut short.
-/

namespace AccessWidening.Snapshot

theorem slice_eq (before : Bytes) {bytes found after : Bytes} {start size : Nat}
    (hbytes : bytes = before ++ found ++ after) (hstart : before.length = start)
    (hsize : found.length = size) : slice bytes start size = found := by
  subst hbytes hstart hsize
  unfold slice
  rw [List.append_assoc, List.drop_left, List.take_left]

/-- The size that a header states: that of its payload, reduced to 32 bits. -/
def statedSize (payload : Bytes) : Nat := payload.length % 0x100000000

theorem statedSize_of_lt {payload : Bytes} (h : payload.length < 2 ^ 32) :
    statedSize payload = payload.length :=
  Nat.mod_eq_of_lt h

theorem length_checksum (payload : Bytes) : (checksum payload).length = 16 := by
  simp [checksum]

theorem length_header (payload : Bytes) : (header payload).length = headerSize := by
  simp [header, length_checksum, magic, headerSize]

variable (payload rest : Bytes)

theorem magic_header : slice (header payload ++ rest) 0 4 = magic :=
  slice_eq [] (by simp only [header, List.append_assoc, List.nil_append]; rfl) rfl rfl

theorem version_header : Bytes.toNat (slice (header payload ++ rest) 4 2) = version := by
  have hslice : slice (header payload ++ rest) 4 2 = Bytes.littleEndian 2 version :=
    slice_eq magic (by simp only [header, List.append_assoc]; rfl) rfl rfl
  rw [hslice]
  rfl

theorem size_header :
    Bytes.toNat (slice (header payload ++ rest) 8 4) = statedSize payload := by
  have hslice : slice (header payload ++ rest) 8 4 = Bytes.littleEndian 4 payload.length :=
    slice_eq (magic ++ Bytes.littleEndian 2 version ++ Bytes.littleEndian 2 0)
      (by simp only [header, List.append_assoc]; rfl) rfl rfl
  rw [hslice, Bytes.toNat_littleEndian]
  rfl

theorem checksum_header : slice (header payload ++ rest) 12 16 = checksum payload :=
  slice_eq (magic ++ Bytes.littleEndian 2 version ++ Bytes.littleEndian 2 0 ++
      Bytes.littleEndian 4 payload.length)
    (by simp only [header, List.append_assoc]; rfl) rfl (length_checksum payload)

theorem payload_header (size : Nat) :
    slice (header payload ++ rest) headerSize size = rest.take size := by
  unfold slice
  rw [← length_header payload, List.drop_left]

/-- Behind a header the stated number of bytes is the payload, if there are so many and their
checksum is the one in the header. -/
theorem payloadOf_header :
    payloadOf (header payload ++ rest) =
      if rest.length < statedSize payload then
        .error (.lengthMismatch (statedSize payload) rest.length)
      else if checksum (rest.take (statedSize payload)) ≠ checksum payload then
        .error .checksumMismatch
      else .ok (rest.take (statedSize payload)) := by
  have hlength : (header payload ++ rest).length = headerSize + rest.length := by
    rw [List.length_append, length_header]
  have henough : ¬ headerSize + rest.length < headerSize := by omega
  have hshort : headerSize + rest.length < headerSize + statedSize payload ↔
      rest.length < statedSize payload := by omega
  unfold payloadOf
  simp only [magic_header, version_header, size_header, checksum_header, payload_header, hlength,
    henough, if_false, ne_eq, not_true_eq_false, hshort, Nat.add_sub_cancel_left]

end AccessWidening.Snapshot
