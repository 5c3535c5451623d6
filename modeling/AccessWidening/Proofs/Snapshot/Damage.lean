import AccessWidening.Proofs.Snapshot.Acceptance

/-!
What becomes of a snapshot that was cut short, continued or changed at one place.

A change at one place leaves every field of the header as it was but the one that the place belongs
to. So the first check that can fail is the one of that field. Whether a changed or shortened
payload is found out is up to its hash, and to nothing else.
-/

namespace AccessWidening

/-- Bytes of one length have the same number only if they are the same. -/
theorem Bytes.toNat_inj {a b : Bytes} (hlength : a.length = b.length) :
    toNat a = toNat b ↔ a = b := by
  constructor
  · intro hsame
    rw [← littleEndian_toNat a, ← littleEndian_toNat b, hlength, hsame]
  · rintro rfl
    rfl

namespace Snapshot

/-- Whether bytes differ from others of their length at one place, and nowhere else. -/
structure DiffersAt (i : Nat) (bytes damaged : Bytes) : Prop where
  length_eq : damaged.length = bytes.length
  getElem?_ne : damaged[i]? ≠ bytes[i]?
  getElem?_eq : ∀ j, j ≠ i → damaged[j]? = bytes[j]?

theorem differsAt_set {i : Nat} {bytes : Bytes} {b : UInt8} (hi : i < bytes.length)
    (hb : bytes[i]? ≠ some b) : DiffersAt i bytes (bytes.set i b) where
  length_eq := List.length_set
  getElem?_ne := by
    rw [List.getElem?_set_self hi]
    exact hb.symm
  getElem?_eq j hj := List.getElem?_set_ne hj.symm

theorem getElem?_slice {bytes : Bytes} {start size j : Nat} (hj : j < size) :
    (slice bytes start size)[j]? = bytes[start + j]? := by
  unfold slice
  rw [List.getElem?_take_of_lt hj, List.getElem?_drop]

namespace DiffersAt

variable {i : Nat} {bytes damaged : Bytes}

theorem slice_eq_of_outside (h : DiffersAt i bytes damaged) {start size : Nat}
    (hi : i < start ∨ start + size ≤ i) :
    slice damaged start size = slice bytes start size := by
  apply slice_congr
  intro j hstart hend
  exact h.getElem?_eq j (by omega)

theorem slice_ne_of_inside (h : DiffersAt i bytes damaged) (start size : Nat)
    (hi : start ≤ i ∧ i < start + size) :
    slice damaged start size ≠ slice bytes start size := by
  intro hsame
  have hplace (bytes : Bytes) : (slice bytes start size)[i - start]? = bytes[i]? := by
    rw [getElem?_slice (by omega), Nat.add_sub_cancel' hi.1]
  apply h.getElem?_ne
  rw [← hplace, hsame, hplace]

/-- A number that is damaged is another number. -/
theorem toNat_slice_ne_of_inside (h : DiffersAt i bytes damaged) (start size : Nat)
    (hi : start ≤ i ∧ i < start + size) :
    Bytes.toNat (slice damaged start size) ≠ Bytes.toNat (slice bytes start size) := by
  have hlength : (slice damaged start size).length = (slice bytes start size).length := by
    unfold slice
    rw [List.length_take, List.length_take, List.length_drop, List.length_drop, h.length_eq]
  rw [ne_eq, Bytes.toNat_inj hlength]
  exact h.slice_ne_of_inside start size hi

/-! ## The fields of a header after a damage -/

section

variable {payload : Bytes} (h : DiffersAt i (header payload ++ payload) damaged)
include h

theorem length_damaged : damaged.length = headerSize + payload.length := by
  rw [h.length_eq, List.length_append, length_header]

theorem magic_eq (hi : 4 ≤ i) : slice damaged 0 4 = magic := by
  rw [h.slice_eq_of_outside (.inr hi), magic_header]

theorem magic_ne (hi : i < 4) : slice damaged 0 4 ≠ magic := by
  have hfield := h.slice_ne_of_inside 0 4 ⟨Nat.zero_le i, by omega⟩
  rwa [magic_header] at hfield

theorem version_eq (hi : 6 ≤ i) : versionField damaged = version := by
  unfold versionField
  rw [h.slice_eq_of_outside (.inr hi), version_header]

theorem version_ne (hi : 4 ≤ i ∧ i < 6) : versionField damaged ≠ version := by
  have hfield := h.toNat_slice_ne_of_inside 4 2 hi
  rwa [version_header] at hfield

theorem size_eq (hsize : payload.length < 2 ^ 32) (hi : 12 ≤ i) :
    sizeField damaged = payload.length := by
  unfold sizeField
  rw [h.slice_eq_of_outside (.inr hi), size_header, statedSize_of_lt hsize]

theorem size_ne (hsize : payload.length < 2 ^ 32) (hi : 8 ≤ i ∧ i < 12) :
    sizeField damaged ≠ payload.length := by
  have hfield := h.toNat_slice_ne_of_inside 8 4 hi
  rwa [size_header, statedSize_of_lt hsize] at hfield

theorem checksum_eq (hi : i < 12 ∨ 28 ≤ i) : slice damaged 12 16 = checksum payload := by
  rw [h.slice_eq_of_outside hi, checksum_header]

theorem checksum_ne (hi : 12 ≤ i ∧ i < 28) : slice damaged 12 16 ≠ checksum payload := by
  have hfield := h.slice_ne_of_inside 12 16 hi
  rwa [checksum_header] at hfield

theorem payload_eq (hi : i < headerSize) :
    payloadField damaged = payload.take (sizeField damaged) := by
  unfold payloadField
  rw [h.slice_eq_of_outside (.inl hi), payload_header]

end

end DiffersAt

/-- What is said of a snapshot that was damaged at one place, by the field of the place: with which
fault restoring `fails`, or that it `restores` what the snapshot was taken of. Only where the size
shrank or the payload changed is it up to the hash. -/
structure Detects (payload : Bytes) (i : Nat) (damaged : Bytes) (fails : SnapshotError → Prop)
    (restores : Prop) : Prop where
  magic_fails : i < 4 → fails .badMagic
  version_fails : 4 ≤ i → i < 6 → fails (.incompatibleVersion (versionField damaged))
  unused_restores : Unused i → restores
  size_differs : 8 ≤ i → i < 12 → sizeField damaged ≠ payload.length
  size_grown_fails : 8 ≤ i → i < 12 → payload.length < sizeField damaged →
    fails (.lengthMismatch (sizeField damaged) payload.length)
  size_shrunk_fails : 8 ≤ i → i < 12 → sizeField damaged < payload.length →
    checksum (payload.take (sizeField damaged)) ≠ checksum payload → fails .checksumMismatch
  checksum_fails : 12 ≤ i → i < 28 → fails .checksumMismatch
  payload_fails : headerSize ≤ i → checksum (damaged.drop headerSize) ≠ checksum payload →
    fails .checksumMismatch

end Snapshot

open Snapshot

namespace RuleSet

variable {rules : RuleSet} {i : Nat} {bytes damaged : Bytes}

/-- Bytes with a header in order are rejected if the payload has another checksum than the header
states. -/
theorem ofSnapshot_of_checksum_ne (hmagic : slice bytes 0 4 = magic)
    (hversion : versionField bytes = version) (hsize : headerSize + sizeField bytes ≤ bytes.length)
    (hchecksum : checksum (payloadField bytes) ≠ slice bytes 12 16) :
    ofSnapshot bytes = .error .checksumMismatch := by
  rw [ofSnapshot_eq_checks, if_neg (by omega), if_neg (not_not.mpr hmagic),
    if_neg (not_not.mpr hversion), if_neg (Nat.not_lt.mpr hsize), if_pos hchecksum]

def Detects (rules : RuleSet) (i : Nat) (damaged : Bytes) : Prop :=
  Snapshot.Detects rules.payload.write i damaged (fun fault => ofSnapshot damaged = .error fault)
    (ofSnapshot damaged = .ok rules)

theorem detects_of_differsAt (hsize : rules.payload.write.length < 2 ^ 32)
    (h : DiffersAt i rules.toSnapshot damaged) : rules.Detects i damaged := by
  have hheader : DiffersAt i (header rules.payload.write ++ rules.payload.write) damaged := h
  have hlength := hheader.length_damaged
  have hheaderSize : headerSize = 32 := rfl
  unfold Detects
  constructor
  case magic_fails =>
    intro hi
    rw [ofSnapshot_eq_checks, if_neg (by omega), if_pos (hheader.magic_ne hi)]
  case version_fails =>
    intro hi hi'
    rw [ofSnapshot_eq_checks, if_neg (by omega), if_neg (not_not.mpr (hheader.magic_eq hi)),
      if_pos (hheader.version_ne ⟨hi, hi'⟩)]
  case unused_restores =>
    intro hi
    have hused : ∀ j, ¬ Unused j → damaged[j]? = rules.toSnapshot[j]? := by
      intro j hj
      apply h.getElem?_eq
      rintro rfl
      exact hj hi
    rw [ofSnapshot_congr (payloadOf_of_unused h.length_eq hused), ofSnapshot_toSnapshot hsize]
  case size_differs =>
    intro hi hi'
    exact hheader.size_ne hsize ⟨hi, hi'⟩
  case size_grown_fails =>
    intro hi hi' hgrown
    rw [ofSnapshot_eq_checks, if_neg (by omega),
      if_neg (not_not.mpr (hheader.magic_eq (by omega))),
      if_neg (not_not.mpr (hheader.version_eq (by omega))), if_pos (by omega), hlength,
      Nat.add_sub_cancel_left]
  case size_shrunk_fails =>
    intro hi hi' hshrunk hhash
    apply ofSnapshot_of_checksum_ne (hheader.magic_eq (by omega)) (hheader.version_eq (by omega))
    · omega
    · rw [hheader.payload_eq (by omega), hheader.checksum_eq (.inl hi')]
      exact hhash
  case checksum_fails =>
    intro hi hi'
    have hfield := hheader.size_eq hsize hi
    apply ofSnapshot_of_checksum_ne (hheader.magic_eq (by omega)) (hheader.version_eq (by omega))
    · omega
    · rw [hheader.payload_eq (by omega), hfield, List.take_length]
      exact (hheader.checksum_ne ⟨hi, hi'⟩).symm
  case payload_fails =>
    intro hi hhash
    have hfield := hheader.size_eq hsize (by omega)
    have hpayload : payloadField damaged = damaged.drop headerSize := by
      apply List.take_of_length_le
      rw [List.length_drop]
      omega
    apply ofSnapshot_of_checksum_ne (hheader.magic_eq (by omega)) (hheader.version_eq (by omega))
    · omega
    · rw [hpayload, hheader.checksum_eq (.inr (by omega))]
      exact hhash

theorem length_toSnapshot (rules : RuleSet) :
    rules.toSnapshot.length = headerSize + rules.payload.write.length := by
  rw [toSnapshot, List.length_append, length_header]

/-- A snapshot that was cut short lacks bytes of the header or of the payload. -/
theorem ofSnapshot_take_toSnapshot (hsize : rules.payload.write.length < 2 ^ 32) {n : Nat}
    (hn : n < rules.toSnapshot.length) :
    ofSnapshot (rules.toSnapshot.take n) = .error (
      if n < headerSize then .lengthMismatch headerSize n
      else .lengthMismatch rules.payload.write.length (n - headerSize)) := by
  rw [length_toSnapshot] at hn
  by_cases hheader : n < headerSize
  · have hlength : (rules.toSnapshot.take n).length = n := by
      rw [List.length_take, length_toSnapshot]
      omega
    rw [if_pos hheader, ofSnapshot_eq_checks, hlength, if_pos hheader]
  · -- The header is complete, and the payload is not.
    have hcut : rules.toSnapshot.take n =
        header rules.payload.write ++ rules.payload.write.take (n - headerSize) := by
      rw [toSnapshot, List.take_append, length_header, List.take_of_length_le]
      rw [length_header]
      omega
    have hrest : (rules.payload.write.take (n - headerSize)).length = n - headerSize := by
      rw [List.length_take]
      omega
    unfold ofSnapshot
    rw [if_neg hheader, hcut, payloadOf_header, statedSize_of_lt hsize, hrest, if_pos (by omega)]
    rfl

/-- What follows a snapshot does not count. -/
theorem ofSnapshot_toSnapshot_append (hsize : rules.payload.write.length < 2 ^ 32) (rest : Bytes) :
    ofSnapshot (rules.toSnapshot ++ rest) = .ok rules := by
  have hlength : headerSize + sizeField rules.toSnapshot = rules.toSnapshot.length := by
    have hfield : sizeField rules.toSnapshot = statedSize rules.payload.write := size_header _ _
    rw [hfield, statedSize_of_lt hsize, length_toSnapshot]
  have htrailing := ofSnapshot_congr (payloadOf_take_append (Nat.le_of_eq hlength) rest)
  rwa [hlength, List.take_length, ofSnapshot_toSnapshot hsize] at htrailing

end RuleSet

def RuleStore.Detects (store : RuleStore) (i : Nat) (damaged : Bytes) : Prop :=
  Snapshot.Detects store.toRuleSet.payload.write i damaged
    (fun fault => ofSnapshot damaged = .error fault) (store.RestoredFrom damaged)

theorem RuleStore.detects_iff {store : RuleStore} (h : store.Kept) {i : Nat} {damaged : Bytes} :
    store.Detects i damaged ↔ store.toRuleSet.Detects i damaged := by
  unfold RuleStore.Detects RuleSet.Detects
  simp only [ofSnapshot_eq_error_iff, restoredFrom_iff h]

namespace RuleSet

/-- Damaged snapshots are rejected. A snapshot that was cut short has not the length that it should
have, wherever it was cut, and whatever bytes follow it, it is restored. If a single byte was
changed, the error is that of the field that the byte belongs to, if it is used at all. Where the
size shrank or the payload changed, this takes another hash of the payload; the other errors take
nothing. The same holds of every store of the set. -/
theorem damaged_snapshot_rejected (rules : RuleSet)
    (hsize : rules.payload.write.length < 2 ^ 32) :
    (∀ n < rules.toSnapshot.length, ofSnapshot (rules.toSnapshot.take n) = .error (
      if n < headerSize then .lengthMismatch headerSize n
      else .lengthMismatch rules.payload.write.length (n - headerSize))) ∧
    (∀ rest, ofSnapshot (rules.toSnapshot ++ rest) = .ok rules) ∧
    (∀ i damaged, DiffersAt i rules.toSnapshot damaged → rules.Detects i damaged) ∧
    ∀ store : RuleStore, store.Reachable → store.toRuleSet = rules →
      (∀ n < store.toSnapshot.length, RuleStore.ofSnapshot (store.toSnapshot.take n) = .error (
        if n < headerSize then .lengthMismatch headerSize n
        else .lengthMismatch rules.payload.write.length (n - headerSize))) ∧
      (∀ rest, store.RestoredFrom (store.toSnapshot ++ rest)) ∧
      ∀ i damaged, DiffersAt i store.toSnapshot damaged → store.Detects i damaged := by
  refine ⟨fun _ => ofSnapshot_take_toSnapshot hsize, ofSnapshot_toSnapshot_append hsize,
    fun _ _ => detects_of_differsAt hsize, ?_⟩
  rintro store hstore rfl
  rw [RuleStore.toSnapshot_toRuleSet hstore.kept]
  refine ⟨?_, ?_, ?_⟩
  · intro n hn
    rw [RuleStore.ofSnapshot_eq_error_iff]
    exact ofSnapshot_take_toSnapshot hsize hn
  · intro rest
    rw [RuleStore.restoredFrom_iff hstore.kept]
    exact ofSnapshot_toSnapshot_append hsize rest
  · intro i damaged hdiffers
    rw [RuleStore.detects_iff hstore.kept]
    exact detects_of_differsAt hsize hdiffers

/-- A snapshot of one rule, in which the class is given another name, or the size of the payload is
made too small. The hashes differ, and a store of the rule is not restored either. -/
theorem damaged_snapshot_rejected_of_hashes :
    let rules := empty.request (.classItself "a") ⟨.pub, .unstated⟩
    let renamed := rules.toSnapshot.set 36 0x62
    let shortened := rules.toSnapshot.set 8 5
    rules.payload.write.length < 2 ^ 32 ∧
    (DiffersAt 36 rules.toSnapshot renamed ∧
      checksum (renamed.drop headerSize) ≠ checksum rules.payload.write ∧
      ofSnapshot renamed = .error .checksumMismatch) ∧
    (DiffersAt 8 rules.toSnapshot shortened ∧
      checksum (rules.payload.write.take 5) ≠ checksum rules.payload.write ∧
      ofSnapshot shortened = .error .checksumMismatch) ∧
    ∃ store : RuleStore, store.Reachable ∧ store.toRuleSet = rules ∧
      RuleStore.ofSnapshot renamed = .error .checksumMismatch := by
  intro rules renamed shortened
  have hsize : rules.payload.write.length < 2 ^ 32 := by decide
  obtain ⟨_, _, hdetects, hstores⟩ := damaged_snapshot_rejected rules hsize
  obtain ⟨store, hstore, hrules⟩ : ∃ store : RuleStore, store.Reachable ∧
      store.toRuleSet = rules := ⟨_, .add .empty _ _, RuleStore.toRuleSet_add_empty _ _⟩
  have hrenamed : DiffersAt 36 rules.toSnapshot renamed :=
    differsAt_set (by decide +kernel) (by decide +kernel)
  have hshortened : DiffersAt 8 rules.toSnapshot shortened :=
    differsAt_set (by decide +kernel) (by decide +kernel)
  have hhash : checksum (renamed.drop headerSize) ≠ checksum rules.payload.write := by
    decide +kernel
  have hhash' : checksum (rules.payload.write.take 5) ≠ checksum rules.payload.write := by
    decide +kernel
  have hfield : sizeField shortened = 5 := by decide +kernel
  refine ⟨hsize, ⟨hrenamed, hhash, ?_⟩, ⟨hshortened, hhash', ?_⟩, store, hstore, hrules, ?_⟩
  · exact (hdetects 36 renamed hrenamed).payload_fails (by decide) hhash
  · apply (hdetects 8 shortened hshortened).size_shrunk_fails (by decide) (by decide)
    · rw [hfield]
      decide
    · rw [hfield]
      exact hhash'
  · have hwritten : store.toSnapshot = rules.toSnapshot := by
      rw [RuleStore.toSnapshot_toRuleSet hstore.kept, hrules]
    have hfound : store.Detects 36 renamed :=
      (hstores store hstore hrules).2.2 36 renamed (hwritten ▸ hrenamed)
    refine hfound.payload_fails (by decide) ?_
    rw [hrules]
    exact hhash

end RuleSet

end AccessWidening
