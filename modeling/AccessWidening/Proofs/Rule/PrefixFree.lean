import AccessWidening.Proofs.Rule.Descriptors

/-!
Descriptors are prefix-free: a text begins with one descriptor at most. So it does not matter in
which order the forms are tried, nor that no more than one of them is read, and how far a repetition
of parameters gets is said by the text alone.
-/

namespace AccessWidening.Grammar

open Syntax

/-! ## One beginning -/

theorem scanFieldType_eq_some_iff {cs text rest : List Char} :
    scanFieldType cs = some (text, rest) ↔
      ∃ type : FieldType, type.text = text ∧ cs = text ++ rest := by
  constructor
  · intro hscan
    obtain ⟨type, htext⟩ := exists_of_scanFieldType hscan
    exact ⟨type, htext, (scanFieldType_eq_some hscan).1⟩
  · rintro ⟨type, rfl, rfl⟩
    exact scanFieldType_append type rest

theorem scanFieldType_eq_none_iff {cs : List Char} :
    scanFieldType cs = none ↔ ∀ type : FieldType, ¬ type.text <+: cs := by
  constructor
  · rintro hnone type ⟨rest, rfl⟩
    rw [scanFieldType_append] at hnone
    cases hnone
  · intro hno
    cases hscan : scanFieldType cs with
    | none => rfl
    | some found =>
        obtain ⟨type, htext, hcs⟩ := scanFieldType_eq_some_iff.mp hscan
        exact absurd ⟨found.2, by rw [htext, hcs]⟩ (hno type)

theorem scanDescriptor_eq_some_iff {cs text rest : List Char} {kind : DescriptorKind} :
    scanDescriptor cs = some (kind, text, rest) ↔
      ∃ descriptor : Descriptor, descriptor.kind = kind ∧ descriptor.text = text ∧
        cs = text ++ rest := by
  constructor
  · exact exists_of_scanDescriptor
  · rintro ⟨descriptor, rfl, rfl, rfl⟩
    exact scanDescriptor_append descriptor rest

theorem exists_scanDescriptor_iff {cs : List Char} :
    (∃ found, scanDescriptor cs = some found) ↔
      ∃ descriptor : Descriptor, descriptor.text <+: cs := by
  constructor
  · rintro ⟨⟨kind, text, rest⟩, hscan⟩
    obtain ⟨descriptor, -, rfl, rfl⟩ := scanDescriptor_eq_some_iff.mp hscan
    exact ⟨descriptor, List.prefix_append _ _⟩
  · rintro ⟨descriptor, rest, rfl⟩
    exact ⟨_, scanDescriptor_append descriptor rest⟩

/-- A descriptor is not the beginning of another. -/
theorem Descriptor.eq_of_append {a b : Descriptor} {rest after : List Char}
    (h : a.text ++ rest = b.text ++ after) : a = b ∧ rest = after := by
  have hscan := scanDescriptor_append a rest
  rw [h, scanDescriptor_append b after] at hscan
  obtain ⟨hkind, hfound⟩ := Prod.mk.inj (Option.some.inj hscan)
  obtain ⟨htext, hrest⟩ := Prod.mk.inj hfound
  exact ⟨text_injective hkind.symm htext.symm, hrest.symm⟩

/-- The first character of a descriptor tells its kind. -/
theorem Descriptor.kind_eq_method_iff (descriptor : Descriptor) :
    descriptor.kind = .method ↔ descriptor.text.head? = some '(' := by
  cases descriptor with
  | field type =>
      refine iff_of_false nofun ?_
      intro hhead
      obtain ⟨after, hopen⟩ := List.head?_eq_some_iff.mp hhead
      have hstarts : type.text ++ [] = '(' :: after := (List.append_nil _).trans hopen
      exact absurd (FieldType.starts hstarts) (by decide)
  | method type => exact iff_of_true rfl rfl

/-! ## The repetition of parameters -/

/-- So many rounds of a repetition, from one text to what they leave of it: each reads one
parameter. -/
inductive Rounds : Nat → List Char → List Char → Prop where
  | none (cs : List Char) : Rounds 0 cs cs
  | next {n : Nat} {cs text after rest : List Char} (read : scanFieldType cs = some (text, after))
      (further : Rounds n after rest) : Rounds (n + 1) cs rest

/-- No round leaves as much as it found. -/
theorem Rounds.length_le {n : Nat} {cs rest : List Char} (h : Rounds n cs rest) :
    n + rest.length ≤ cs.length := by
  induction h with
  | none cs => exact Nat.le_of_eq (Nat.zero_add _)
  | next read _ ih =>
      have hshorter := length_lt_of_scanFieldType read
      omega

/-- So many rounds read so many parameters. -/
theorem rounds_iff {n : Nat} {cs rest : List Char} :
    Rounds n cs rest ↔ ∃ types : List FieldType, types.length = n ∧
      cs = types.flatMap FieldType.text ++ rest := by
  constructor
  · intro h
    induction h with
    | none cs => exact ⟨[], rfl, rfl⟩
    | next read _ ih =>
        obtain ⟨type, rfl, rfl⟩ := scanFieldType_eq_some_iff.mp read
        obtain ⟨types, rfl, rfl⟩ := ih
        exact ⟨type :: types, rfl, by rw [List.flatMap_cons, List.append_assoc]⟩
  · rintro ⟨types, rfl, rfl⟩
    induction types with
    | nil => exact .none rest
    | cons type types ih =>
        rw [List.flatMap_cons, List.append_assoc]
        exact .next (scanFieldType_append type _) ih

theorem scanFieldType_left_by_scanParameters (cs : List Char) :
    scanFieldType (scanParameters cs).2 = none := by
  induction cs using scanParameters.induct with
  | case1 cs hnone =>
      rw [scanParameters_of_none hnone]
      exact hnone
  | case2 cs text rest hscan _ _ _ ih =>
      rw [scanParameters_of_some hscan]
      exact ih

/-- The repetition takes whole parameters only, and stops where none follows. -/
theorem scanParameters_eq_iff {cs text rest : List Char} :
    scanParameters cs = (text, rest) ↔ scanFieldType rest = none ∧
      ∃ types : List FieldType, types.flatMap FieldType.text = text ∧ cs = text ++ rest := by
  constructor
  · intro hscan
    obtain ⟨types, htypes, hcs⟩ := exists_of_scanParameters cs
    have hnone := scanFieldType_left_by_scanParameters cs
    rw [hscan] at htypes hcs hnone
    exact ⟨hnone, types, htypes, hcs⟩
  · rintro ⟨hnone, types, rfl, rfl⟩
    exact scanParameters_append_of_none types hnone

/-- A text that sets out as a field type and does not get to the end of one. -/
structure HalfRead (cs : List Char) : Prop where
  starts : cs.head? = some '[' ∨ cs.head? = some 'L'
  unfinished : ∀ type : FieldType, ¬ type.text <+: cs

/-- A parameter that is not read to its end is no parameter, and it stands where the parenthesis
would have to close. -/
theorem scanMethodType_of_halfRead {types : List FieldType} {rest : List Char}
    (h : HalfRead rest) :
    scanMethodType ('(' :: (types.flatMap FieldType.text ++ rest)) = none := by
  have hscan := scanParameters_append_of_none types (scanFieldType_eq_none_iff.mpr h.unfinished)
  simp only [scanMethodType, hscan]
  split
  · next heq =>
    obtain ⟨-, rfl⟩ := Prod.mk.inj heq
    rcases h.starts with hstart | hstart
    · cases hstart
    · cases hstart
  · rfl

/-- How the parameters at the front of a text are read. -/
structure ReadsParameters (cs : List Char) : Prop where
  /-- There are no more rounds than characters: a round takes one at least. -/
  bounded : ∀ {n rest}, Rounds n cs rest → n + rest.length ≤ cs.length
  /-- The rounds end, and they end where there cannot be another. -/
  ends : ∃ n, Rounds n cs (scanParameters cs).2 ∧ ¬ ∃ rest, Rounds 1 (scanParameters cs).2 rest
  /-- What is read are whole parameters, and what is left is all that follows them. -/
  whole : ∀ {text rest}, scanParameters cs = (text, rest) ↔
    (∀ type : FieldType, ¬ type.text <+: rest) ∧
      ∃ types : List FieldType, types.flatMap FieldType.text = text ∧ cs = text ++ rest
  /-- The parenthesis has to close right there, before a parameter that is not whole. -/
  closing : ∀ {text rest}, scanParameters cs = (text, rest) → HalfRead rest →
    scanMethodType ('(' :: cs) = none

theorem readsParameters (cs : List Char) : ReadsParameters cs where
  bounded := Rounds.length_le
  ends := by
    obtain ⟨types, htypes, hcs⟩ := exists_of_scanParameters cs
    rw [← htypes] at hcs
    refine ⟨_, rounds_iff.mpr ⟨types, rfl, hcs⟩, ?_⟩
    rintro ⟨rest, hround⟩
    cases hround with
    | next read _ =>
        rw [scanFieldType_left_by_scanParameters] at read
        cases read
  whole := by
    intro text rest
    rw [scanParameters_eq_iff, scanFieldType_eq_none_iff]
  closing := by
    intro text rest hscan hhalf
    obtain ⟨-, types, rfl, rfl⟩ := scanParameters_eq_iff.mp hscan
    exact scanMethodType_of_halfRead hhalf

/-- Descriptors are prefix-free, and a descriptor is read wherever there is one: exactly its text,
as a method descriptor exactly if it starts with a parenthesis. The repetition of parameters within
comes to an end, and gives back what is not a whole parameter. -/
theorem descriptors_read_exactly (cs : List Char) :
    (∀ a b : Descriptor, a.text <+: cs → b.text <+: cs → a = b) ∧
    ((∃ found, scanDescriptor cs = some found) ↔
      ∃ descriptor : Descriptor, descriptor.text <+: cs) ∧
    (∀ kind text rest, scanDescriptor cs = some (kind, text, rest) ↔
      ∃ descriptor : Descriptor, descriptor.kind = kind ∧ descriptor.text = text ∧
        cs = text ++ rest) ∧
    (∀ descriptor : Descriptor,
      descriptor.kind = .method ↔ descriptor.text.head? = some '(') ∧
    ReadsParameters cs := by
  refine ⟨?_, exists_scanDescriptor_iff, fun _ _ _ => scanDescriptor_eq_some_iff,
    Descriptor.kind_eq_method_iff, readsParameters cs⟩
  rintro a b ⟨rest, ha⟩ ⟨after, hb⟩
  exact (Descriptor.eq_of_append (ha.trans hb.symm)).1

/-- After one whole parameter comes a bracket, and then the parenthesis closes: the bracket is given
back, so nothing is read, although the parenthesis is there behind it. -/
theorem no_descriptor_of_half_read_parameter :
    scanParameters "I[)V".toList = (['I'], "[)V".toList) ∧ HalfRead "[)V".toList ∧
      scanMethodType "(I[)V".toList = none := by
  have hhalf : HalfRead "[)V".toList := ⟨.inl rfl, scanFieldType_eq_none_iff.mp rfl⟩
  obtain ⟨-, -, -, -, hreads⟩ := descriptors_read_exactly "I[)V".toList
  have hscan : scanParameters "I[)V".toList = (['I'], "[)V".toList) :=
    hreads.whole.mpr ⟨hhalf.unfinished, [.primitive 'I' (by decide)], rfl, rfl⟩
  exact ⟨hscan, hhalf, hreads.closing hscan hhalf⟩

end AccessWidening.Grammar
