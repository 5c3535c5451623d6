import AccessWidening.Proofs.Snapshot.Primitives
import AccessWidening.Snapshot.Payload

/-!
Payloads can be read back.

A payload is put together from numbers and strings, so this follows from the laws of those. What
fits is what has no text and no number too large.
-/

namespace AccessWidening

open Wire

/-- Whether all strings of an element are short enough to be read back. -/
def Element.Fits : Element → Prop
  | classItself name => Short name
  | field owner name descriptor => Short owner ∧ Short name ∧ ∀ s ∈ descriptor, Short s
  | method owner name descriptor => Short owner ∧ Short name ∧ Short descriptor

structure Payload.Fits (payload : Payload) : Prop where
  classCount_lt : payload.classCount < maxCount
  length_lt : payload.entries.length < maxCount
  elements : ∀ entry ∈ payload.entries, entry.1.Fits

theorem Element.inverts_read (e : Element) : Inverts Element.read e.write e e.Fits := by
  unfold Element.read
  cases e with
  | classItself name =>
      have hwritten : (classItself name).write = writeNumber 0 ++ (writeString name ++ []) := by
        simp [write]
      have hfits : True ∧ Short name ∧ True ↔ (classItself name).Fits := by simp [Fits]
      rw [hwritten]
      refine ((inverts_small 252 (by decide)).bind ((inverts_readString name).bind ?_)).congr hfits
      exact Inverts.pure _
  | field owner name descriptor =>
      have hwritten : (field owner name descriptor).write = writeNumber 1 ++
          (writeString owner ++ (writeString name ++ (writeOptional descriptor ++ []))) := by
        simp [write]
      have hfits : True ∧ Short owner ∧ Short name ∧ (∀ s ∈ descriptor, Short s) ∧ True ↔
          (field owner name descriptor).Fits := by simp [Fits]
      rw [hwritten]
      refine ((inverts_small 252 (by decide)).bind ((inverts_readString owner).bind
        ((inverts_readString name).bind ((inverts_readOptional descriptor).bind ?_)))).congr hfits
      exact Inverts.pure _
  | method owner name descriptor =>
      have hwritten : (method owner name descriptor).write = writeNumber 2 ++
          (writeString owner ++ (writeString name ++ (writeString descriptor ++ []))) := by
        simp [write]
      have hfits : True ∧ Short owner ∧ Short name ∧ Short descriptor ∧ True ↔
          (method owner name descriptor).Fits := by simp [Fits]
      rw [hwritten]
      refine ((inverts_small 252 (by decide)).bind ((inverts_readString owner).bind
        ((inverts_readString name).bind ((inverts_readString descriptor).bind ?_)))).congr hfits
      exact Inverts.pure _

theorem Visibility.ofRank?_rank (v : Visibility) : ofRank? v.rank = some v := by
  cases v <;> rfl

theorem Finality.ofRank?_rank (f : Finality) : ofRank? f.rank = some f := by
  cases f <;> rfl

theorem Level.inverts_read (level : Level) : Inverts Level.read level.write level True := by
  have hvisibility : level.visibility.rank ≤ 250 := by
    cases level.visibility <;> decide
  have hfinality : level.finality.rank ≤ 250 := by
    cases level.finality <;> decide
  have hwritten : level.write =
      writeNumber level.visibility.rank ++ (writeNumber level.finality.rank ++ []) := by
    rw [List.append_nil]
    rfl
  have hfits : True ∧ True ∧ True ↔ True := by simp
  rw [hwritten]
  unfold Level.read
  refine ((inverts_small 252 hvisibility).bind ?_).congr hfits
  simp only [Visibility.ofRank?_rank]
  refine (inverts_small 252 hfinality).bind ?_
  simp only [Finality.ofRank?_rank]
  exact Inverts.pure level

namespace Payload

theorem inverts_readEntries (entries : List (Element × Level)) :
    Inverts (readEntries entries.length) (writeEntries entries) entries
      (∀ entry ∈ entries, entry.1.Fits) := by
  induction entries with
  | nil => exact (Inverts.pure []).congr (by simp)
  | cons entry rest ih =>
      have hwritten : writeEntries (entry :: rest) =
          entry.1.write ++ (entry.2.write ++ (writeEntries rest ++ [])) := by
        simp [writeEntries]
      have hfits : entry.1.Fits ∧ True ∧ (∀ other ∈ rest, other.1.Fits) ∧ True ↔
          ∀ other ∈ entry :: rest, other.1.Fits := by simp
      rw [hwritten, List.length_cons]
      change Inverts (fun bytes => readEntries (rest.length + 1) bytes) _ _ _
      simp only [readEntries]
      refine (entry.1.inverts_read.bind ?_).congr hfits
      dsimp only
      refine entry.2.inverts_read.bind ?_
      dsimp only
      refine ih.bind ?_
      exact Inverts.pure (entry :: rest)

/-- A payload is read back from its written form. -/
theorem inverts_read (payload : Payload) :
    Inverts Payload.read payload.write payload payload.Fits := by
  have hwritten : payload.write = writeNumber payload.classCount ++
      (writeNumber payload.entries.length ++ (writeEntries payload.entries ++ [])) := by
    simp [write]
  have hfits : payload.classCount < maxCount ∧ payload.entries.length < maxCount ∧
      (∀ entry ∈ payload.entries, entry.1.Fits) ∧ True ↔ payload.Fits := by
    constructor
    · rintro ⟨hclasses, hlength, helements, _⟩
      exact ⟨hclasses, hlength, helements⟩
    · intro h
      exact ⟨h.classCount_lt, h.length_lt, h.elements, trivial⟩
  rw [hwritten]
  unfold Payload.read
  refine ((inverts_readCount _).bind ((inverts_readCount _).bind
    ((inverts_readEntries payload.entries).bind ?_))).congr hfits
  exact Inverts.pure _

end Payload

end AccessWidening
