import AccessWidening.Snapshot.Wire

/-!
Readers of bytes, and the two laws that a format is built on.

A reader inverts a writer: after the written form of a value it finds the value and what follows,
unless the value is too large to be read back. And a reader recognizes a format: it finds a value
exactly where the bytes begin with a form of the value. Both laws pass to readers that are put
together. What is recognized is taken from the front, so bytes added at the end are left over, and
every proper prefix of a written form is unreadable.
-/

namespace AccessWidening.Wire

/-- A reader takes a value from the front of some bytes, and gives the bytes after it. -/
abbrev Reader (α : Type) := Bytes → Option (α × Bytes)

/-- Whatever follows the written form of `x`, a reader finds `x` there if it `fits`, and nothing
if it does not. -/
structure Inverts {α : Type} (read : Reader α) (written : Bytes) (x : α) (fits : Prop) : Prop where
  accepts : fits → ∀ rest, read (written ++ rest) = some (x, rest)
  refuses : ¬ fits → ∀ rest, read (written ++ rest) = none

/-- Whether a reader finds a value exactly where the bytes begin with a form of the value. -/
def Recognizes {α : Type} (read : Reader α) (form : α → Bytes → Prop) : Prop :=
  ∀ bytes x rest, read bytes = some (x, rest) ↔ ∃ written, form x written ∧ bytes = written ++ rest

variable {α β : Type} {read : Reader α} {next : α × Bytes → Option (β × Bytes)}

namespace Inverts

theorem congr {written : Bytes} {x : α} {fits fits' : Prop} (h : Inverts read written x fits)
    (hfits : fits ↔ fits') : Inverts read written x fits' where
  accepts hfits' := h.accepts (hfits.mpr hfits')
  refuses hnot := h.refuses fun hfits' => hnot (hfits.mp hfits')

/-- A reader that reads nothing inverts a writer that writes nothing. -/
theorem pure (x : α) : Inverts (fun bytes => some (x, bytes)) [] x True where
  accepts _ _ := rfl
  refuses hnot := absurd trivial hnot

/-- Reading one value after another inverts writing one after another. -/
theorem bind {first second : Bytes} {a : α} {b : β} {fits fits' : Prop}
    (ha : Inverts read first a fits) (hb : Inverts (fun bytes => next (a, bytes)) second b fits') :
    Inverts (fun bytes => read bytes >>= next) (first ++ second) b (fits ∧ fits') := by
  have haccepted (h : fits) (rest : Bytes) :
      (read (first ++ second ++ rest) >>= next) = next (a, second ++ rest) := by
    rw [List.append_assoc, ha.accepts h]
    rfl
  constructor
  · rintro ⟨h, h'⟩ rest
    rw [haccepted h rest]
    exact hb.accepts h' rest
  · intro hnot rest
    by_cases h : fits
    · rw [haccepted h rest]
      exact hb.refuses (fun h' => hnot ⟨h, h'⟩) rest
    · rw [List.append_assoc, ha.refuses h]
      rfl

end Inverts

namespace Recognizes

theorem congr {form form' : α → Bytes → Prop} (h : Recognizes read form)
    (hform : ∀ x written, form x written ↔ form' x written) : Recognizes read form' := by
  intro bytes x rest
  simp only [h bytes x rest, hform]

theorem pure (x : α) :
    Recognizes (fun bytes => some (x, bytes)) fun y written => y = x ∧ written = [] := by
  intro bytes y rest
  constructor
  · intro h
    obtain ⟨rfl, rfl⟩ := Prod.mk.inj (Option.some.inj h)
    exact ⟨[], ⟨rfl, rfl⟩, rfl⟩
  · rintro ⟨_, ⟨rfl, rfl⟩, rfl⟩
    rfl

theorem none : Recognizes (fun _ => (Option.none : Option (α × Bytes))) fun _ _ => False := by
  intro bytes x rest
  refine iff_of_false (by simp) ?_
  rintro ⟨_, h, _⟩
  exact h

/-- A value that is computed on the way, or cannot be, takes no bytes. -/
theorem lift (value : Option β) {after : β → Reader α} {form : β → α → Bytes → Prop}
    (hafter : ∀ b, Recognizes (after b) (form b)) :
    Recognizes (fun bytes => value >>= fun b => after b bytes) fun x written =>
      ∃ b, value = some b ∧ form b x written := by
  intro bytes x rest
  cases value with
  | none => simp
  | some b => simpa using hafter b bytes x rest

/-- Reading one value after another recognizes their forms one after another. -/
theorem bind {form : α → Bytes → Prop} {form' : α → β → Bytes → Prop} (hread : Recognizes read form)
    (hnext : ∀ a, Recognizes (fun bytes => next (a, bytes)) (form' a)) :
    Recognizes (fun bytes => read bytes >>= next) fun b written =>
      ∃ a first second, form a first ∧ form' a b second ∧ written = first ++ second := by
  intro bytes b rest
  constructor
  · intro h
    obtain ⟨⟨a, middle⟩, ha, hb⟩ := Option.bind_eq_some_iff.mp h
    obtain ⟨first, hfirst, rfl⟩ := (hread _ _ _).mp ha
    obtain ⟨second, hsecond, rfl⟩ := (hnext a _ _ _).mp hb
    exact ⟨first ++ second, ⟨a, first, second, hfirst, hsecond, rfl⟩,
      (List.append_assoc _ _ _).symm⟩
  · rintro ⟨_, ⟨a, first, second, hfirst, hsecond, rfl⟩, rfl⟩
    apply Option.bind_eq_some_iff.mpr
    refine ⟨(a, second ++ rest), (hread _ _ _).mpr ⟨first, hfirst, List.append_assoc _ _ _⟩, ?_⟩
    exact (hnext a _ _ _).mpr ⟨second, hsecond, rfl⟩

/-- More bytes at the end make no difference but that they are left over. -/
theorem read_append {form : α → Bytes → Prop} (h : Recognizes read form)
    {bytes rest : Bytes} {x : α} (hread : read bytes = some (x, rest)) (more : Bytes) :
    read (bytes ++ more) = some (x, rest ++ more) := by
  obtain ⟨written, hform, rfl⟩ := (h _ _ _).mp hread
  exact (h _ _ _).mpr ⟨written, hform, List.append_assoc _ _ _⟩

end Recognizes

/-- No proper prefix of a written form is readable: reading would stop before the end of the whole
form, which is not where it stops. -/
theorem Inverts.take_eq_none {written : Bytes} {x : α} {fits : Prop}
    (h : Inverts read written x fits) {form : α → Bytes → Prop} (hread : Recognizes read form)
    {n : Nat} (hn : n < written.length) : read (written.take n) = none := by
  cases hprefix : read (written.take n) with
  | none => rfl
  | some found =>
      obtain ⟨y, rest⟩ := found
      have hwhole := hread.read_append hprefix (written.drop n)
      rw [List.take_append_drop] at hwhole
      by_cases hfits : fits
      · have haccepted := h.accepts hfits []
        rw [List.append_nil, hwhole] at haccepted
        have hrest : rest ++ written.drop n = [] := (Prod.mk.inj (Option.some.inj haccepted)).2
        have hdrop : written.drop n = [] := (List.append_eq_nil_iff.mp hrest).2
        have hshort : written.length ≤ n := List.drop_eq_nil_iff.mp hdrop
        omega
      · have hrefused := h.refuses hfits []
        rw [List.append_nil, hwhole] at hrefused
        cases hrefused

end AccessWidening.Wire
