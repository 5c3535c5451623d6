import Mathlib.Algebra.Group.Nat.Defs
import AccessWidening.Proofs.RuleSet.Requests
import AccessWidening.Proofs.RuleStore.Alike
import AccessWidening.Proofs.Snapshot.Forms
import AccessWidening.Proofs.Snapshot.Header
import AccessWidening.Proofs.Snapshot.Payload

/-!
Snapshots restore the set that they were taken of, as long as the header has room for the size of
the payload. A larger payload is cut short on restoring, and what is left of it cannot be read; that
is so whatever its hash.
-/

namespace AccessWidening

open Wire

theorem Bytes.exists_length_ofString (n : Nat) : ∃ s, (Bytes.ofString s).length = n := by
  induction n with
  | zero => exact ⟨"", rfl⟩
  | succ n ih =>
      obtain ⟨s, hs⟩ := ih
      have hlength (t : String) : (Bytes.ofString t).length = t.utf8ByteSize := rfl
      refine ⟨s ++ "a", ?_⟩
      rw [hlength] at hs ⊢
      rw [String.utf8ByteSize_append, hs]
      rfl

/-- What can be written in less than the largest size can be read back. -/
theorem Element.fits_of_length {e : Element} (h : e.write.length < maxCount) : e.Fits := by
  cases e with
  | classItself name =>
      simp only [write, writeString, List.length_append] at h
      unfold Fits Short
      omega
  | field owner name descriptor =>
      simp only [write, writeString, List.length_append] at h
      unfold Fits Short
      refine ⟨by omega, by omega, ?_⟩
      intro s hs
      obtain rfl := Option.mem_def.mp hs
      simp only [writeOptional, writeString, List.length_cons, List.length_append] at h
      omega
  | method owner name descriptor =>
      simp only [write, writeString, List.length_append] at h
      unfold Fits Short
      omega

namespace Payload

theorem length_writeEntries_cons (entry : Element × Level) (rest : List (Element × Level)) :
    (writeEntries (entry :: rest)).length =
      entry.1.write.length + entry.2.write.length + (writeEntries rest).length := by
  unfold writeEntries
  rw [List.flatMap_cons, List.length_append, List.length_append]

theorem length_write_le_writeEntries {entries : List (Element × Level)} {entry : Element × Level}
    (hmem : entry ∈ entries) : entry.1.write.length ≤ (writeEntries entries).length := by
  induction entries with
  | nil => cases hmem
  | cons first rest ih =>
      rw [length_writeEntries_cons]
      rcases List.mem_cons.mp hmem with rfl | hrest
      · omega
      · have hle := ih hrest
        omega

theorem length_le_writeEntries (entries : List (Element × Level)) :
    entries.length ≤ (writeEntries entries).length := by
  induction entries with
  | nil => exact Nat.zero_le _
  | cons entry rest ih =>
      have hlevel : 0 < entry.2.write.length := by
        have hnumber := length_writeNumber_pos entry.2.visibility.rank
        rw [Level.write, List.length_append]
        omega
      rw [length_writeEntries_cons, List.length_cons]
      omega

end Payload

namespace RuleSet

theorem fits_payload {rules : RuleSet} (h : rules.payload.write.length < maxCount) :
    rules.payload.Fits := by
  have hentries : (Payload.writeEntries rules.entries).length < maxCount := by
    simp only [payload, Payload.write, List.length_append] at h
    omega
  have hlength : rules.entries.length < maxCount :=
    Nat.lt_of_le_of_lt (Payload.length_le_writeEntries rules.entries) hentries
  refine ⟨Nat.lt_of_le_of_lt rules.classCount_le_length hlength, hlength, ?_⟩
  intro entry hmem
  apply Element.fits_of_length
  exact Nat.lt_of_le_of_lt (Payload.length_write_le_writeEntries hmem) hentries

/-- The payload of a set restores the set: its entries are all different and are of the number of
classes that it states. -/
theorem restore_payload (rules : RuleSet) : rules.payload.restore = .ok rules := by
  unfold Payload.restore
  have hrebuilt : empty.requestAll rules.payload.entries = rules := requestAll_entries rules
  simp only [hrebuilt]
  simp [payload]

theorem ofSnapshot_eq {bytes cut : Bytes} (hcut : Snapshot.payloadOf bytes = .ok cut) :
    ofSnapshot bytes = match Payload.read cut with
      | none => .error .undecodable
      | some (content, _) => content.restore := by
  unfold ofSnapshot
  rw [hcut]
  rfl

theorem ofSnapshot_toSnapshot {rules : RuleSet}
    (h : rules.payload.write.length < 0x100000000) : ofSnapshot rules.toSnapshot = .ok rules := by
  have hsize : Snapshot.statedSize rules.payload.write = rules.payload.write.length :=
    Nat.mod_eq_of_lt h
  have hcut : Snapshot.payloadOf rules.toSnapshot = .ok rules.payload.write := by
    unfold toSnapshot
    rw [Snapshot.payloadOf_header, hsize]
    simp
  have hfits : rules.payload.Fits := by
    apply fits_payload
    unfold maxCount
    omega
  have hread := rules.payload.inverts_read.accepts hfits []
  rw [List.append_nil] at hread
  rw [ofSnapshot_eq hcut, hread]
  exact restore_payload rules

theorem ofSnapshot_toSnapshot_of_large {rules : RuleSet}
    (h : 0x100000000 ≤ rules.payload.write.length) :
    ∃ fault, ofSnapshot rules.toSnapshot = .error fault := by
  have hlt : Snapshot.statedSize rules.payload.write < rules.payload.write.length := by
    unfold Snapshot.statedSize
    omega
  have hcut : Snapshot.payloadOf rules.toSnapshot = _ :=
    Snapshot.payloadOf_header rules.payload.write rules.payload.write
  rw [if_neg (by omega)] at hcut
  split at hcut
  · refine ⟨.checksumMismatch, ?_⟩
    unfold ofSnapshot
    rw [hcut]
    rfl
  · refine ⟨.undecodable, ?_⟩
    rw [ofSnapshot_eq hcut,
      rules.payload.inverts_read.take_eq_none Payload.recognizes_read hlt]

theorem toSnapshot_inj {a b : RuleSet} (h : a.payload.write.length < maxCount) :
    a.toSnapshot = b.toSnapshot ↔ a = b := by
  constructor
  · intro hsame
    unfold toSnapshot at hsame
    dsimp only at hsame
    have hpayload : a.payload.write = b.payload.write := by
      apply List.append_inj_right hsame
      rw [Snapshot.length_header, Snapshot.length_header]
    have hread := a.payload.inverts_read.accepts (fits_payload h) []
    rw [hpayload, b.payload.inverts_read.accepts (fits_payload (hpayload ▸ h)) []] at hread
    have hentries : b.payload = a.payload := (Prod.mk.inj (Option.some.inj hread)).1
    exact ext_entries (congrArg Payload.entries hentries).symm
  · rintro rfl
    rfl

/-- Restoring undoes taking a snapshot. A set whose payload has less than 2^32 bytes is restored,
a snapshot with a larger payload is never restored, to no set whatsoever and whatever its hash, and
different sets have different snapshots, for all sizes that 64 bits can count. The same holds of
every store of the set. -/
theorem snapshot_round_trip (rules : RuleSet) :
    let size := rules.payload.write.length
    (size < 2 ^ 32 → ofSnapshot rules.toSnapshot = .ok rules) ∧
    (2 ^ 32 ≤ size → ∃ fault, ofSnapshot rules.toSnapshot = .error fault) ∧
    (size < 2 ^ 64 → ∀ other : RuleSet, rules.toSnapshot = other.toSnapshot ↔ rules = other) ∧
    ∀ store : RuleStore, store.Reachable → store.toRuleSet = rules →
      (size < 2 ^ 32 → store.RestoredFrom store.toSnapshot) ∧
      (2 ^ 32 ≤ size → ∃ fault, RuleStore.ofSnapshot store.toSnapshot = .error fault) ∧
      (size < 2 ^ 64 → ∀ other : RuleStore, other.Reachable →
        (store.toSnapshot = other.toSnapshot ↔ (store == other) = true)) := by
  intro size
  refine ⟨ofSnapshot_toSnapshot, ofSnapshot_toSnapshot_of_large, fun hsize _ => toSnapshot_inj hsize,
    ?_⟩
  rintro store hstore rfl
  rw [RuleStore.toSnapshot_toRuleSet hstore.kept]
  refine ⟨?_, ?_, ?_⟩
  · intro hsmall
    rw [RuleStore.restoredFrom_iff hstore.kept]
    exact ofSnapshot_toSnapshot hsmall
  · intro hlarge
    simp only [RuleStore.ofSnapshot_eq_error_iff]
    exact ofSnapshot_toSnapshot_of_large hlarge
  · intro hsize other hother
    rw [RuleStore.toSnapshot_toRuleSet hother.kept, RuleStore.beq_iff hstore.kept hother.kept]
    exact toSnapshot_inj hsize

/-- A small set is restored, in a store too, and there are sets that are too large to be: a class
name has no bound. -/
theorem exists_snapshot_too_large :
    let name (text : String) : RuleSet := empty.request (.classItself text) ⟨.pub, .unstated⟩
    let store := RuleStore.empty.add (.classItself "a") ⟨.pub, .unstated⟩
    ofSnapshot (name "a").toSnapshot = .ok (name "a") ∧
      (store.Reachable ∧ store.toRuleSet = name "a" ∧ store.RestoredFrom store.toSnapshot) ∧
      ∃ text, 2 ^ 32 ≤ (name text).payload.write.length ∧
        ∃ fault, ofSnapshot (name text).toSnapshot = .error fault := by
  intro name store
  have hstore : store.Reachable := .add .empty _ _
  have hrules : store.toRuleSet = name "a" := RuleStore.toRuleSet_add_empty _ _
  have hsmall : (name "a").payload.write.length < 2 ^ 32 := by decide
  obtain ⟨hrestored, -, -, hstores⟩ := snapshot_round_trip (name "a")
  refine ⟨hrestored hsmall, ⟨hstore, hrules, (hstores store hstore hrules).1 hsmall⟩, ?_⟩
  obtain ⟨text, htext⟩ := Bytes.exists_length_ofString (2 ^ 32)
  have hentries : (name text).payload.entries = [(.classItself text, ⟨.pub, .unstated⟩)] := rfl
  have hlength : (Bytes.ofString text).length ≤ (name text).payload.write.length := by
    unfold Payload.write
    rw [hentries]
    simp only [Payload.writeEntries, List.flatMap_cons, Element.write, writeString,
      List.length_append]
    omega
  rw [htext] at hlength
  exact ⟨text, hlength, (snapshot_round_trip (name text)).2.1 hlength⟩

end RuleSet

end AccessWidening
