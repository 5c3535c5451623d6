import AccessWidening.Proofs.First
import AccessWidening.Proofs.Listing
import AccessWidening.Proofs.Snapshot.RoundTrip

/-!
The checks that a snapshot passes before it is restored, each said of the bytes, in the order in
which they are made. The first check that fails is the one that is reported, and bytes that pass all
of them are restored.

Repeated elements are not searched for: they show in that fewer rules than entries are rebuilt.
-/

namespace AccessWidening

open Wire

namespace Payload

/-- Whether no element has several entries, in whatever order they stand. -/
def Distinct (payload : Payload) : Prop := (payload.entries.map Prod.fst).Nodup

instance (payload : Payload) : Decidable payload.Distinct :=
  inferInstanceAs (Decidable (List.Nodup _))

def ownerCount (payload : Payload) : Nat :=
  (payload.entries.map fun entry => entry.1.owner).toFinset.card

def rebuilt (payload : Payload) : RuleSet := RuleSet.empty.requestAll payload.entries

variable (payload : Payload)

theorem mem_elements_rebuilt {e : Element} :
    e ∈ payload.rebuilt.elements ↔ e ∈ payload.entries.map Prod.fst := by
  have hnone : payload.rebuilt.level? e = none ↔ ∀ level, (e, level) ∉ payload.entries := by
    rw [rebuilt, RuleSet.level?_requestAll_empty, Level.joinAll_eq_none_iff,
      List.eq_nil_iff_forall_not_mem]
    simp only [RuleSet.mem_levelsFor]
  rw [← not_iff_not, ← RuleSet.level?_eq_none_iff, hnone]
  simp

theorem classCount_rebuilt : payload.rebuilt.classCount = payload.ownerCount := by
  apply (increasing_listing _).length_eq_card
  intro owner
  simp only [mem_listing, List.mem_map, mem_elements_rebuilt]
  constructor
  · rintro ⟨_, ⟨entry, hentry, rfl⟩, rfl⟩
    exact ⟨entry, hentry, rfl⟩
  · rintro ⟨entry, hentry, rfl⟩
    exact ⟨entry.1, ⟨entry, hentry, rfl⟩, rfl⟩

/-- As many rules as entries are rebuilt exactly if no element is repeated. -/
theorem length_rebuilt_iff :
    payload.rebuilt.entries.length = payload.entries.length ↔ payload.Distinct := by
  have hcard : payload.rebuilt.entries.length = (payload.entries.map Prod.fst).toFinset.card := by
    have hincreasing : Increasing payload.rebuilt.elements := payload.rebuilt.increasing_elements
    rw [← hincreasing.length_eq_card fun _ => payload.mem_elements_rebuilt, RuleSet.elements,
      List.length_map]
  have hlength : payload.entries.length = (payload.entries.map Prod.fst).length := by simp
  rw [hcard, hlength]
  exact Multiset.toFinset_card_eq_card_iff_nodup (m := Multiset.ofList _)

/-- Without repetitions, exactly the entries are the rules that are rebuilt. -/
theorem level?_rebuilt_iff (hdistinct : payload.Distinct) {e : Element} {level : Level} :
    payload.rebuilt.level? e = some level ↔ (e, level) ∈ payload.entries := by
  have hheld {held : Level} (hmem : (e, held) ∈ payload.entries) :
      payload.rebuilt.level? e = some held := by
    rw [rebuilt, RuleSet.level?_requestAll_empty]
    refine Level.joinAll_eq_some_of_agree (List.ne_nil_of_mem (RuleSet.mem_levelsFor.mpr hmem)) ?_
    intro request hrequest
    have hsame := List.inj_on_of_nodup_map hdistinct (RuleSet.mem_levelsFor.mp hrequest) hmem rfl
    exact congrArg Prod.snd hsame
  refine ⟨fun hlevel => ?_, hheld⟩
  have helement : e ∈ payload.entries.map Prod.fst :=
    payload.mem_elements_rebuilt.mp (RuleSet.mem_elements_iff.mpr ⟨level, hlevel⟩)
  obtain ⟨⟨_, held⟩, hmem, rfl⟩ := List.mem_map.mp helement
  obtain rfl := Option.some.inj (hlevel.symm.trans (hheld hmem))
  exact hmem

theorem restore_eq : payload.restore =
    if payload.ownerCount ≠ payload.classCount then
      .error (.classCount payload.classCount payload.ownerCount)
    else if ¬ payload.Distinct then .error .duplicateEntries
    else .ok payload.rebuilt := by
  unfold restore
  simp only [← classCount_rebuilt, ← length_rebuilt_iff]
  rfl

end Payload

namespace Snapshot

inductive Check where
  | headerSize
  | magic
  | version
  | payloadSize
  | checksum
  | decoding
  | classCount
  | distinctness
  deriving DecidableEq

/-- Every check, in the order in which they are made. -/
def Check.all : List Check :=
  [headerSize, magic, version, payloadSize, checksum, decoding, classCount, distinctness]

def versionField (bytes : Bytes) : Nat := Bytes.toNat (slice bytes 4 2)

def sizeField (bytes : Bytes) : Nat := Bytes.toNat (slice bytes 8 4)

def payloadField (bytes : Bytes) : Bytes := slice bytes headerSize (sizeField bytes)

/-- Whether bytes begin with a form of a payload, with any bytes after it. -/
def Holds (bytes : Bytes) (content : Payload) : Prop :=
  ∃ written unread, content.Form written ∧ bytes = written ++ unread

def Fails (bytes : Bytes) : Check → SnapshotError → Prop
  | .headerSize, fault =>
    bytes.length < headerSize ∧ fault = .lengthMismatch headerSize bytes.length
  | .magic, fault => slice bytes 0 4 ≠ magic ∧ fault = .badMagic
  | .version, fault =>
    versionField bytes ≠ version ∧ fault = .incompatibleVersion (versionField bytes)
  | .payloadSize, fault =>
    bytes.length < headerSize + sizeField bytes ∧
      fault = .lengthMismatch (sizeField bytes) (bytes.length - headerSize)
  | .checksum, fault =>
    checksum (payloadField bytes) ≠ slice bytes 12 16 ∧ fault = .checksumMismatch
  | .decoding, fault =>
    (¬ ∃ content, Holds (payloadField bytes) content) ∧ fault = .undecodable
  | .classCount, fault =>
    ∃ content, Holds (payloadField bytes) content ∧ content.ownerCount ≠ content.classCount ∧
      fault = .classCount content.classCount content.ownerCount
  | .distinctness, fault =>
    ∃ content, Holds (payloadField bytes) content ∧ ¬ content.Distinct ∧ fault = .duplicateEntries

/-- Whether an error reports the first of some checks that bytes fail. -/
def Reports (bytes : Bytes) (checks : List Check) (fault : SnapshotError) : Prop :=
  ∃ i check, FirstAt (fun check => ∃ fault, Fails bytes check fault) checks i check ∧
    Fails bytes check fault

/-- What it takes for bytes to be a snapshot with a given content. -/
structure WellFormed (bytes : Bytes) (content : Payload) : Prop where
  header_le : headerSize ≤ bytes.length
  magic_eq : slice bytes 0 4 = magic
  version_eq : versionField bytes = version
  payload_le : headerSize + sizeField bytes ≤ bytes.length
  checksum_eq : slice bytes 12 16 = checksum (payloadField bytes)
  holds : Holds (payloadField bytes) content
  distinct : content.Distinct
  ownerCount_eq : content.ownerCount = content.classCount

theorem holds_iff {bytes : Bytes} {content : Payload} :
    Holds bytes content ↔ ∃ unread, Payload.read bytes = some (content, unread) := by
  simp only [Holds, Payload.recognizes_read bytes content]
  exact exists_comm

variable {bytes : Bytes} {check : Check} {rest : List Check} {fault : SnapshotError}

theorem reports_cons : Reports bytes (check :: rest) fault ↔
    Fails bytes check fault ∨ (¬ ∃ fault, Fails bytes check fault) ∧ Reports bytes rest fault :=
  FirstAt.exists_cons_iff

/-- A check that is made before the others: it reports its own failure, and leaves the rest to
them. -/
theorem reports_step {p : Prop} [Decidable p] {own : SnapshotError}
    {next : Except SnapshotError RuleSet}
    (hfails : ∀ fault, Fails bytes check fault ↔ p ∧ fault = own)
    (hnext : ¬ p → (next = .error fault ↔ Reports bytes rest fault)) :
    (if p then .error own else next) = .error fault ↔ Reports bytes (check :: rest) fault := by
  rw [reports_cons]
  simp only [hfails]
  by_cases hp : p
  · simp [hp, eq_comm]
  · simp [hp, hnext hp]

end Snapshot

namespace RuleSet

open Snapshot

variable {bytes : Bytes} {rules : RuleSet} {fault : SnapshotError}

/-- Restoring is one check after another. -/
theorem ofSnapshot_eq_checks (bytes : Bytes) :
    ofSnapshot bytes =
      if bytes.length < headerSize then .error (.lengthMismatch headerSize bytes.length)
      else if slice bytes 0 4 ≠ magic then .error .badMagic
      else if versionField bytes ≠ version then .error (.incompatibleVersion (versionField bytes))
      else if bytes.length < headerSize + sizeField bytes then
        .error (.lengthMismatch (sizeField bytes) (bytes.length - headerSize))
      else if checksum (payloadField bytes) ≠ slice bytes 12 16 then .error .checksumMismatch
      else match Payload.read (payloadField bytes) with
        | none => .error .undecodable
        | some (content, _) =>
          if content.ownerCount ≠ content.classCount then
            .error (.classCount content.classCount content.ownerCount)
          else if ¬ content.Distinct then .error .duplicateEntries
          else .ok content.rebuilt := by
  unfold ofSnapshot payloadOf payloadField versionField sizeField
  dsimp only
  split_ifs
  all_goals try rfl
  -- The checks of the header are passed, and what remains is to read and to rebuild.
  simp only [← Payload.restore_eq]
  rfl

/-- An error reports the first check that fails. -/
theorem ofSnapshot_eq_error_iff :
    ofSnapshot bytes = .error fault ↔ Reports bytes Check.all fault := by
  rw [ofSnapshot_eq_checks]
  refine reports_step (fun _ => Iff.rfl) fun _ => reports_step (fun _ => Iff.rfl) fun _ =>
    reports_step (fun _ => Iff.rfl) fun _ => reports_step (fun _ => Iff.rfl) fun _ =>
    reports_step (fun _ => Iff.rfl) fun _ => ?_
  cases hread : Payload.read (payloadField bytes) with
  | none =>
      have hnone : ¬ ∃ content, Holds (payloadField bytes) content := by
        simp [holds_iff, hread]
      rw [reports_cons]
      simp [Fails, hnone, eq_comm]
  | some found =>
      obtain ⟨content, unread⟩ := found
      have hcontent (other : Payload) : Holds (payloadField bytes) other ↔ other = content := by
        simp [holds_iff, hread, eq_comm]
      rw [reports_cons]
      have hdecodes : ¬ ∃ fault, Fails bytes .decoding fault := by simp [Fails, hcontent]
      have hnot : ¬ Fails bytes .decoding fault := fun hfails => hdecodes ⟨fault, hfails⟩
      rw [or_iff_right hnot, and_iff_right hdecodes]
      refine reports_step (by simp [Fails, hcontent]) fun _ =>
        reports_step (by simp [Fails, hcontent]) fun _ => ?_
      refine iff_of_false (by simp) ?_
      rintro ⟨_, _, hfirst, _⟩
      exact List.not_mem_nil hfirst.mem

theorem ite_error_eq_ok_iff {p : Prop} [Decidable p] {next : Except SnapshotError RuleSet} :
    (if p then .error fault else next) = .ok rules ↔ ¬ p ∧ next = .ok rules := by
  by_cases hp : p <;> simp [hp]

/-- A set is restored from the well-formed snapshots of its entries, and from no other bytes. -/
theorem ofSnapshot_eq_ok_iff :
    ofSnapshot bytes = .ok rules ↔ ∃ content, WellFormed bytes content ∧
      ∀ e level, rules.level? e = some level ↔ (e, level) ∈ content.entries := by
  rw [ofSnapshot_eq_checks]
  simp only [ite_error_eq_ok_iff, not_lt, ne_eq, not_not]
  constructor
  · rintro ⟨hheader, hmagic, hversion, hpayload, hchecksum, hread⟩
    cases hfound : Payload.read (payloadField bytes) with
    | none =>
        rw [hfound] at hread
        cases hread
    | some found =>
        obtain ⟨content, unread⟩ := found
        simp only [hfound, ite_error_eq_ok_iff, not_not, Except.ok.injEq] at hread
        obtain ⟨howners, hdistinct, rfl⟩ := hread
        exact ⟨content, ⟨hheader, hmagic, hversion, hpayload, hchecksum.symm,
          holds_iff.mpr ⟨unread, hfound⟩, hdistinct, howners⟩,
          fun _ _ => content.level?_rebuilt_iff hdistinct⟩
  · rintro ⟨content, h, hlevels⟩
    obtain ⟨unread, hread⟩ := holds_iff.mp h.holds
    refine ⟨h.header_le, h.magic_eq, h.version_eq, h.payload_le, h.checksum_eq.symm, ?_⟩
    simp only [hread, ite_error_eq_ok_iff, not_not, Except.ok.injEq]
    refine ⟨h.ownerCount_eq, h.distinct, ?_⟩
    apply ext_level?
    intro e
    apply Option.ext
    intro level
    rw [content.level?_rebuilt_iff h.distinct, hlevels]

end RuleSet

end AccessWidening
