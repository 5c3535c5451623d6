import AccessWidening.Proofs.Snapshot.Checks

/-!
Which bytes are restored, to which rules, and what is said of all others.

Next to the checks themselves this takes two facts about the header: what is looked at is there by
the time it is looked at, and the flags, the reserved bytes and what follows the payload are not
looked at.
-/

namespace AccessWidening

namespace Snapshot

/-- The bytes at a place, or nothing if they are not all there. -/
def slice? (bytes : Bytes) (start size : Nat) : Option Bytes :=
  if start + size ≤ bytes.length then some (slice bytes start size) else none

def remainder? (size taken : Nat) : Option Nat := if taken ≤ size then some (size - taken) else none

/-- `payloadOf` by steps that find nothing if they leave the bytes: all fields of the header are cut
out before the version is checked, and the payload before its hash is. -/
def guardedPayloadOf (bytes : Bytes) : Option (Except SnapshotError Bytes) :=
  if bytes.length < headerSize then some (.error (.lengthMismatch headerSize bytes.length))
  else do
    let start ← slice? bytes 0 4
    if start ≠ magic then return .error .badMagic
    else
      let found ← slice? bytes 4 2
      let size ← slice? bytes 8 4
      let stored ← slice? bytes 12 16
      if Bytes.toNat found ≠ version then return .error (.incompatibleVersion (Bytes.toNat found))
      else if bytes.length < headerSize + Bytes.toNat size then
        let actual ← remainder? bytes.length headerSize
        return .error (.lengthMismatch (Bytes.toNat size) actual)
      else
        let payload ← slice? bytes headerSize (Bytes.toNat size)
        let digest ← slice? (Blake3.hash payload) 0 16
        if digest ≠ stored then return .error .checksumMismatch else return .ok payload

/-- The places of a header that hold nothing: the flags and the last four bytes. -/
def Unused (i : Nat) : Prop := (6 ≤ i ∧ i < 8) ∨ (28 ≤ i ∧ i < headerSize)

theorem slice?_eq_some {bytes : Bytes} {start size : Nat} (h : start + size ≤ bytes.length) :
    slice? bytes start size = some (slice bytes start size) := if_pos h

/-- No step leaves the bytes, whatever they are. -/
theorem guardedPayloadOf_eq (bytes : Bytes) : guardedPayloadOf bytes = some (payloadOf bytes) := by
  unfold guardedPayloadOf payloadOf
  by_cases hheader : bytes.length < headerSize
  · simp only [hheader, if_true]
  have hsize : 32 ≤ bytes.length := Nat.le_of_not_lt hheader
  have hmagic : slice? bytes 0 4 = some (slice bytes 0 4) := slice?_eq_some (by omega)
  have hversion : slice? bytes 4 2 = some (slice bytes 4 2) := slice?_eq_some (by omega)
  have hstated : slice? bytes 8 4 = some (slice bytes 8 4) := slice?_eq_some (by omega)
  have hstored : slice? bytes 12 16 = some (slice bytes 12 16) := slice?_eq_some (by omega)
  have hactual : remainder? bytes.length headerSize = some (bytes.length - headerSize) :=
    if_pos hsize
  have hdigest (payload : Bytes) : slice? (Blake3.hash payload) 0 16 = some (checksum payload) :=
    slice?_eq_some (by simp)
  simp only [hheader, if_false, hmagic, hversion, hstated, hstored, hactual, hdigest,
    Option.bind_eq_bind, Option.bind_some, Option.pure_def]
  by_cases hshort : bytes.length < headerSize + Bytes.toNat (slice bytes 8 4)
  · simp only [hshort, if_true]
    split_ifs <;> rfl
  · have hpayload : slice? bytes headerSize (Bytes.toNat (slice bytes 8 4)) =
        some (slice bytes headerSize (Bytes.toNat (slice bytes 8 4))) :=
      slice?_eq_some (Nat.le_of_not_lt hshort)
    simp only [hshort, if_false, hpayload, Option.bind_some]
    split_ifs <;> rfl

theorem slice_congr {a b : Bytes} {start size : Nat}
    (h : ∀ i, start ≤ i → i < start + size → a[i]? = b[i]?) :
    slice a start size = slice b start size := by
  apply List.ext_getElem?
  intro i
  unfold slice
  rw [List.getElem?_take, List.getElem?_take]
  split
  · rw [List.getElem?_drop, List.getElem?_drop]
    exact h _ (by omega) (by omega)
  · rfl

/-- The payload that is cut out is a matter of the used places of the header, of the payload, and of
how many bytes there are if there are not enough. -/
theorem payloadOf_congr {a b : Bytes}
    (hbytes : ∀ i, i < headerSize + sizeField b → ¬ Unused i → a[i]? = b[i]?)
    (hlength : a.length = b.length ∨
      headerSize + sizeField b ≤ a.length ∧ headerSize + sizeField b ≤ b.length) :
    payloadOf a = payloadOf b := by
  have hused {start size : Nat} (hinside : start + size ≤ 6 ∨ 8 ≤ start ∧ start + size ≤ 28) :
      slice a start size = slice b start size := by
    apply slice_congr
    intro i hi hi'
    have hheader : headerSize = 32 := rfl
    unfold Unused at hbytes
    exact hbytes i (by omega) (by omega)
  have hmagic : slice a 0 4 = slice b 0 4 := hused (by omega)
  have hversion : slice a 4 2 = slice b 4 2 := hused (by omega)
  have hsize : slice a 8 4 = slice b 8 4 := hused (by omega)
  have hchecksum : slice a 12 16 = slice b 12 16 := hused (by omega)
  have hpayload : slice a headerSize (sizeField b) = slice b headerSize (sizeField b) := by
    apply slice_congr
    intro i hi hi'
    have hheader : headerSize = 32 := rfl
    unfold Unused at hbytes
    exact hbytes i hi' (by omega)
  unfold payloadOf
  simp only [hmagic, hversion, hsize, hchecksum]
  unfold sizeField at hpayload hlength
  rw [hpayload]
  rcases hlength with hsame | ⟨ha, hb⟩
  · rw [hsame]
  · have hheader : ¬ a.length < headerSize ∧ ¬ b.length < headerSize := by omega
    simp only [hheader.1, hheader.2, Nat.not_lt.mpr ha, Nat.not_lt.mpr hb, if_false]

theorem payloadOf_of_unused {bytes other : Bytes} (hlength : other.length = bytes.length)
    (hused : ∀ i, ¬ Unused i → other[i]? = bytes[i]?) : payloadOf other = payloadOf bytes :=
  payloadOf_congr (fun i _ => hused i) (.inl hlength)

/-- What follows the payload can be cut off or replaced. -/
theorem payloadOf_take_append {bytes : Bytes}
    (hcomplete : headerSize + sizeField bytes ≤ bytes.length) (trailing : Bytes) :
    payloadOf (bytes.take (headerSize + sizeField bytes) ++ trailing) = payloadOf bytes := by
  have hlength : (bytes.take (headerSize + sizeField bytes)).length =
      headerSize + sizeField bytes := List.length_take_of_le hcomplete
  apply payloadOf_congr
  · intro i hi _
    rw [List.getElem?_append_left (by omega), List.getElem?_take_of_lt hi]
  · refine .inr ⟨?_, hcomplete⟩
    rw [List.length_append]
    omega

end Snapshot

open Snapshot

variable {bytes other : Bytes}

theorem RuleStore.ofSnapshot_congr (hpayload : payloadOf other = payloadOf bytes) :
    ofSnapshot other = ofSnapshot bytes := by
  unfold ofSnapshot
  rw [hpayload]

/-- A store is restored only from the well-formed snapshots of its entries. -/
theorem RuleStore.entries_of_ofSnapshot {store : RuleStore}
    (hrestored : ofSnapshot bytes = .ok store) :
    ∃ content, WellFormed bytes content ∧
      ∀ entry, entry ∈ store.entries ↔ entry ∈ content.entries := by
  have hkept := (Reachable.ofSnapshot hrestored).kept
  obtain ⟨content, hcontent, hlevels⟩ := RuleSet.ofSnapshot_eq_ok_iff.mp
    (exists_ofSnapshot_eq_ok_iff.mp ⟨store, hrestored, rfl⟩)
  refine ⟨content, hcontent, ?_⟩
  rintro ⟨e, level⟩
  rw [← hlevels, level?_toRuleSet hkept, RuleStore.mem_entries hkept]

namespace RuleSet

theorem ofSnapshot_congr (hpayload : payloadOf other = payloadOf bytes) :
    ofSnapshot other = ofSnapshot bytes := by
  unfold ofSnapshot
  rw [hpayload]

theorem exists_ofSnapshot_eq_ok_iff :
    (∃ rules, ofSnapshot bytes = .ok rules) ↔ ∃ content, WellFormed bytes content := by
  simp only [ofSnapshot_eq_ok_iff]
  constructor
  · rintro ⟨_, content, hcontent, _⟩
    exact ⟨content, hcontent⟩
  · rintro ⟨content, hcontent⟩
    exact ⟨content.rebuilt, content, hcontent,
      fun _ _ => content.level?_rebuilt_iff hcontent.distinct⟩

/-- Restoring accepts exactly the well-formed snapshots, and gives the rules of their entries. For
all other bytes it reports the first check that fails, in the order of `Check.all`. It never leaves
the bytes, and neither the flags and the reserved bytes nor what follows the payload make a
difference. Whether a set or a store is restored makes no difference either. -/
theorem ofSnapshot_accepts_exactly_wellFormed (bytes : Bytes) :
    ((∃ rules, ofSnapshot bytes = .ok rules) ↔ ∃ content, WellFormed bytes content) ∧
    (∀ rules, ofSnapshot bytes = .ok rules ↔ ∃ content, WellFormed bytes content ∧
      ∀ e level, rules.level? e = some level ↔ (e, level) ∈ content.entries) ∧
    (∀ fault, ofSnapshot bytes = .error fault ↔ Reports bytes Check.all fault) ∧
    guardedPayloadOf bytes = some (payloadOf bytes) ∧
    (∀ other : Bytes, other.length = bytes.length → (∀ i, ¬ Unused i → other[i]? = bytes[i]?) →
      ofSnapshot other = ofSnapshot bytes ∧
        RuleStore.ofSnapshot other = RuleStore.ofSnapshot bytes) ∧
    (headerSize + sizeField bytes ≤ bytes.length → ∀ trailing,
      ofSnapshot (bytes.take (headerSize + sizeField bytes) ++ trailing) = ofSnapshot bytes ∧
        RuleStore.ofSnapshot (bytes.take (headerSize + sizeField bytes) ++ trailing) =
          RuleStore.ofSnapshot bytes) ∧
    ((∃ store, RuleStore.ofSnapshot bytes = .ok store) ↔ ∃ content, WellFormed bytes content) ∧
    (∀ store, RuleStore.ofSnapshot bytes = .ok store → ∃ content, WellFormed bytes content ∧
      ∀ entry, entry ∈ store.entries ↔ entry ∈ content.entries) ∧
    ∀ fault, RuleStore.ofSnapshot bytes = .error fault ↔ Reports bytes Check.all fault := by
  refine ⟨exists_ofSnapshot_eq_ok_iff, fun _ => ofSnapshot_eq_ok_iff,
    fun _ => ofSnapshot_eq_error_iff, guardedPayloadOf_eq bytes, ?_, ?_, ?_,
    fun _ => RuleStore.entries_of_ofSnapshot, ?_⟩
  · intro other hlength hused
    have hpayload := payloadOf_of_unused hlength hused
    exact ⟨ofSnapshot_congr hpayload, RuleStore.ofSnapshot_congr hpayload⟩
  · intro hcomplete trailing
    have hpayload := payloadOf_take_append hcomplete trailing
    exact ⟨ofSnapshot_congr hpayload, RuleStore.ofSnapshot_congr hpayload⟩
  · rw [← exists_ofSnapshot_eq_ok_iff]
    simp only [← RuleStore.exists_ofSnapshot_eq_ok_iff]
    constructor
    · rintro ⟨store, hrestored⟩
      exact ⟨store.toRuleSet, store, hrestored, rfl⟩
    · rintro ⟨_, store, hrestored, _⟩
      exact ⟨store, hrestored⟩
  · intro fault
    rw [RuleStore.ofSnapshot_eq_error_iff, ofSnapshot_eq_error_iff]

/-- Two entries for one class, of which the second adds nothing: all checks but the last one are
passed. -/
theorem reports_repeated_class :
    let entry : Element × Level := (.classItself "A", ⟨.pub, .unstated⟩)
    let content : Payload := ⟨1, [entry, entry]⟩
    let bytes := header content.write ++ content.write
    ofSnapshot bytes = .error .duplicateEntries ∧ Reports bytes Check.all .duplicateEntries ∧
      RuleStore.ofSnapshot bytes = .error .duplicateEntries := by
  intro entry content bytes
  have hcut : payloadOf bytes = .ok content.write := by
    have hsize : statedSize content.write = content.write.length := by decide
    rw [payloadOf_header, hsize, List.take_length]
    simp
  have hfits : content.Fits := by
    refine ⟨by decide, by decide, ?_⟩
    intro other hother
    obtain rfl : other = entry := by simpa [content] using hother
    show (Bytes.ofString "A").length < Wire.maxCount
    decide
  have hread := content.inverts_read.accepts hfits []
  rw [List.append_nil] at hread
  have hrestored : ofSnapshot bytes = .error .duplicateEntries := by
    rw [ofSnapshot_eq hcut, hread]
    decide
  obtain ⟨-, -, hreports, -, -, -, -, -, hstore⟩ := ofSnapshot_accepts_exactly_wellFormed bytes
  have hreported := (hreports _).mp hrestored
  exact ⟨hrestored, hreported, (hstore _).mpr hreported⟩

end RuleSet

end AccessWidening
