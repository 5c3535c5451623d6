import AccessWidening.Proofs.Rule.Names

/-!
Descriptors are read as the grammar has them. How much of a text is a descriptor does not depend on
what follows it, so a list of parameter types has one reading too.
-/

namespace AccessWidening.Grammar

open Syntax

/-! ## Field types -/

theorem scanFieldType_append (type : FieldType) (rest : List Char) :
    scanFieldType (type.text ++ rest) = some (type.text, rest) := by
  induction type with
  | primitive letter known =>
      have hbracket : letter ≠ '[' := by
        rintro rfl
        exact absurd known (by decide)
      have hobject : letter ≠ 'L' := by
        rintro rfl
        exact absurd known (by decide)
      have hprimitive : isPrimitive letter = true := List.contains_iff_mem.mpr known
      simp only [FieldType.text, List.singleton_append, scanFieldType]
      rw [if_neg hbracket, if_neg hobject, if_pos hprimitive]
  | object path =>
      have hstop : Stops isPathChar (';' :: rest) := stops_cons (by decide)
      have hscan := scanPath_append path hstop
      simp only [FieldType.text, List.cons_append, List.append_assoc, List.nil_append,
        scanFieldType, hscan]
      rfl
  | array item ih =>
      simp only [FieldType.text, List.cons_append, scanFieldType, ih]
      rfl

theorem exists_of_scanFieldType {cs text rest : List Char}
    (h : scanFieldType cs = some (text, rest)) : ∃ type : FieldType, type.text = text := by
  induction cs generalizing text rest with
  | nil => cases h
  | cons c cs ih =>
      rw [scanFieldType] at h
      split at h
      · obtain ⟨⟨inner, after⟩, hinner, heq⟩ := Option.map_eq_some_iff.mp h
        obtain ⟨rfl, rfl⟩ := Prod.mk.inj heq
        obtain ⟨item, rfl⟩ := ih hinner
        exact ⟨.array item, rfl⟩
      · split at h
        · split at h
          · next path after hpath =>
            obtain ⟨rfl, rfl⟩ := Prod.mk.inj (Option.some.inj h)
            obtain ⟨path, rfl⟩ := exists_of_scanPath hpath
            exact ⟨.object path, rfl⟩
          · cases h
        · split at h
          · next hprimitive =>
            obtain ⟨rfl, rfl⟩ := Prod.mk.inj (Option.some.inj h)
            exact ⟨.primitive c (List.contains_iff_mem.mp hprimitive), rfl⟩
          · cases h

/-- The character that a field type starts with tells which kind of type it is. -/
theorem FieldType.text_injective {a b : FieldType} (h : a.text = b.text) : a = b := by
  induction a generalizing b with
  | primitive letter known =>
      cases b with
      | primitive other _ =>
          obtain rfl := (List.cons.inj h).1
          rfl
      | object path =>
          obtain rfl := (List.cons.inj h).1
          exact absurd known (by decide)
      | array item =>
          obtain rfl := (List.cons.inj h).1
          exact absurd known (by decide)
  | object path =>
      cases b with
      | primitive other known =>
          obtain rfl := (List.cons.inj h).1
          exact absurd known (by decide)
      | object other =>
          have hpath : path.text = other.text :=
            List.append_cancel_right (List.cons.inj h).2
          rw [Path.text_injective hpath]
      | array item => exact absurd (List.cons.inj h).1 (by decide)
  | array item ih =>
      cases b with
      | primitive other known =>
          obtain rfl := (List.cons.inj h).1
          exact absurd known (by decide)
      | object path => exact absurd (List.cons.inj h).1 (by decide)
      | array other => rw [ih (List.cons.inj h).2]

/-- A field type is not the beginning of another. -/
theorem FieldType.eq_of_append {a b : FieldType} {rest after : List Char}
    (h : a.text ++ rest = b.text ++ after) : a = b ∧ rest = after := by
  have hscan := scanFieldType_append a rest
  rw [h, scanFieldType_append b after] at hscan
  obtain ⟨htext, hrest⟩ := Prod.mk.inj (Option.some.inj hscan)
  exact ⟨text_injective htext.symm, hrest.symm⟩

theorem FieldType.starts {type : FieldType} {rest after : List Char} {c : Char}
    (h : type.text ++ rest = c :: after) : c ∈ 'L' :: '[' :: primitives := by
  cases type with
  | primitive letter known =>
      obtain rfl := (List.cons.inj h).1
      exact List.mem_cons_of_mem _ (List.mem_cons_of_mem _ known)
  | object path =>
      obtain rfl := (List.cons.inj h).1
      decide
  | array item =>
      obtain rfl := (List.cons.inj h).1
      decide

/-! ## Parameters -/

theorem scanParameters_of_none {cs : List Char} (h : scanFieldType cs = none) :
    scanParameters cs = ([], cs) := by
  rw [scanParameters]
  split
  · rfl
  · next heq =>
    rw [h] at heq
    cases heq

theorem scanParameters_of_some {cs type rest : List Char}
    (h : scanFieldType cs = some (type, rest)) :
    scanParameters cs = (type ++ (scanParameters rest).1, (scanParameters rest).2) := by
  rw [scanParameters]
  split
  · next heq =>
    rw [h] at heq
    cases heq
  · next heq =>
    rw [h] at heq
    obtain ⟨rfl, rfl⟩ := Prod.mk.inj (Option.some.inj heq)
    rfl

/-- The repetition ends where no field type follows. -/
theorem scanParameters_append_of_none (types : List FieldType) {rest : List Char}
    (hnone : scanFieldType rest = none) :
    scanParameters (types.flatMap FieldType.text ++ rest) =
      (types.flatMap FieldType.text, rest) := by
  induction types with
  | nil => exact scanParameters_of_none hnone
  | cons type types ih =>
      rw [List.flatMap_cons, List.append_assoc,
        scanParameters_of_some (scanFieldType_append type _), ih]

theorem scanParameters_append (types : List FieldType) (rest : List Char) :
    scanParameters (types.flatMap FieldType.text ++ ')' :: rest) =
      (types.flatMap FieldType.text, ')' :: rest) :=
  scanParameters_append_of_none types (by simp [scanFieldType, isPrimitive])

theorem exists_of_scanParameters (cs : List Char) : ∃ types : List FieldType,
    types.flatMap FieldType.text = (scanParameters cs).1 ∧
      cs = (scanParameters cs).1 ++ (scanParameters cs).2 := by
  induction cs using scanParameters.induct with
  | case1 cs hnone =>
      rw [scanParameters_of_none hnone]
      exact ⟨[], rfl, rfl⟩
  | case2 cs text rest hscan _ _ _ ih =>
      obtain ⟨types, htypes, hrest⟩ := ih
      obtain ⟨type, rfl⟩ := exists_of_scanFieldType hscan
      rw [scanParameters_of_some hscan]
      refine ⟨type :: types, ?_, ?_⟩
      · rw [List.flatMap_cons, htypes]
      · rw [List.append_assoc, ← hrest]
        exact (scanFieldType_eq_some hscan).1

/-- A closing parenthesis ends a list of field types, so the list has one reading. -/
theorem parameters_eq_of_append {types others : List FieldType} {rest after : List Char}
    (h : types.flatMap FieldType.text ++ ')' :: rest =
      others.flatMap FieldType.text ++ ')' :: after) : types = others ∧ rest = after := by
  have hclose {type : FieldType} {rest after : List Char} : type.text ++ rest ≠ ')' :: after := by
    intro heq
    exact absurd (FieldType.starts heq) (by decide)
  induction types generalizing others with
  | nil =>
      cases others with
      | nil => exact ⟨rfl, (List.cons.inj h).2⟩
      | cons other others =>
          rw [List.flatMap_cons, List.append_assoc] at h
          exact absurd h.symm hclose
  | cons type types ih =>
      cases others with
      | nil =>
          rw [List.flatMap_cons, List.append_assoc] at h
          exact absurd h hclose
      | cons other others =>
          rw [List.flatMap_cons, List.flatMap_cons, List.append_assoc, List.append_assoc] at h
          obtain ⟨rfl, hmore⟩ := FieldType.eq_of_append h
          obtain ⟨rfl, hrest⟩ := ih hmore
          exact ⟨rfl, hrest⟩

/-! ## Method types -/

theorem scanResult_append (type : MethodType) (rest : List Char) :
    scanResult (type.resultText ++ rest) = some (type.resultText, rest) := by
  cases hresult : type.result with
  | none =>
      rw [MethodType.resultText, hresult]
      rfl
  | some result =>
      have htext : type.resultText = result.text := by rw [MethodType.resultText, hresult]
      rw [htext, ← scanFieldType_append result rest, scanResult]
      intro after heq
      exact absurd (FieldType.starts heq) (by decide)

theorem scanMethodType_append (type : MethodType) (rest : List Char) :
    scanMethodType (type.text ++ rest) = some (type.text, rest) := by
  have hparameters := scanParameters_append type.parameters (type.resultText ++ rest)
  have htext : type.text ++ rest =
      '(' :: (type.parameters.flatMap FieldType.text ++ ')' :: (type.resultText ++ rest)) := by
    simp [MethodType.text]
  rw [htext, scanMethodType, hparameters]
  simp only [scanResult_append]
  rfl

theorem exists_of_scanResult {cs text rest : List Char} (h : scanResult cs = some (text, rest))
    (parameters : List FieldType) : ∃ type : MethodType, type.parameters = parameters ∧
      type.resultText = text ∧ cs = text ++ rest := by
  unfold scanResult at h
  split at h
  · obtain ⟨rfl, rfl⟩ := Prod.mk.inj (Option.some.inj h)
    exact ⟨⟨parameters, none⟩, rfl, rfl, rfl⟩
  · obtain ⟨result, rfl⟩ := exists_of_scanFieldType h
    exact ⟨⟨parameters, some result⟩, rfl, rfl, (scanFieldType_eq_some h).1⟩

theorem exists_of_scanMethodType {cs text rest : List Char}
    (h : scanMethodType cs = some (text, rest)) :
    ∃ type : MethodType, type.text = text ∧ cs = text ++ rest := by
  unfold scanMethodType at h
  split at h
  · next cs =>
    split at h
    · next parameters after hscan =>
      obtain ⟨⟨result, last⟩, hresult, heq⟩ := Option.map_eq_some_iff.mp h
      obtain ⟨rfl, rfl⟩ := Prod.mk.inj heq
      obtain ⟨types, htypes, hcs⟩ := exists_of_scanParameters cs
      rw [hscan] at htypes hcs
      obtain ⟨type, rfl, hresulttext, hafter⟩ := exists_of_scanResult hresult types
      dsimp only at htypes hcs
      refine ⟨type, ?_, ?_⟩
      · rw [MethodType.text, htypes, hresulttext]
      · rw [hcs, hafter]
        simp
    · cases h
  · cases h

theorem MethodType.text_injective {a b : MethodType} (h : a.text = b.text) : a = b := by
  obtain ⟨parameters, result⟩ := a
  obtain ⟨others, other⟩ := b
  obtain ⟨rfl, hresult⟩ := parameters_eq_of_append (List.cons.inj h).2
  have hletter {type : FieldType} : type.text ≠ ['V'] := by
    rw [← List.append_nil type.text]
    intro heq
    exact absurd (FieldType.starts heq) (by decide)
  cases result with
  | none =>
      cases other with
      | none => rfl
      | some other => exact absurd hresult.symm hletter
  | some result =>
      cases other with
      | none => exact absurd hresult hletter
      | some other => rw [FieldType.text_injective hresult]

/-! ## Descriptors -/

namespace Descriptor

def kind : Descriptor → DescriptorKind
  | field _ => .field
  | method _ => .method

/-- Blanks before a descriptor end where it starts. -/
theorem stops (descriptor : Descriptor) (rest : List Char) :
    Stops isSeparator (descriptor.text ++ rest) := by
  intro c hc
  obtain ⟨after, heq⟩ := List.head?_eq_some_iff.mp (Option.mem_def.mp hc)
  cases descriptor with
  | field type =>
      have hletters : ('L' :: '[' :: primitives).all (fun letter => !isSeparator letter) = true :=
        rfl
      simpa using List.all_eq_true.mp hletters c (FieldType.starts heq)
  | method type =>
      obtain rfl := (List.cons.inj heq).1
      rfl

theorem text_injective {a b : Descriptor} (hkind : a.kind = b.kind) (h : a.text = b.text) :
    a = b := by
  cases a with
  | field type =>
      cases b with
      | field other => rw [FieldType.text_injective h]
      | method other => cases hkind
  | method type =>
      cases b with
      | field other => cases hkind
      | method other => rw [MethodType.text_injective h]

end Descriptor

theorem scanDescriptor_append (descriptor : Descriptor) (rest : List Char) :
    scanDescriptor (descriptor.text ++ rest) = some (descriptor.kind, descriptor.text, rest) := by
  cases descriptor with
  | field type =>
      have hnone : scanMethodType (type.text ++ rest) = none := by
        rw [scanMethodType]
        intro after heq
        exact absurd (FieldType.starts heq) (by decide)
      simp only [scanDescriptor, Descriptor.text, hnone, scanFieldType_append]
      rfl
  | method type =>
      simp only [scanDescriptor, Descriptor.text, scanMethodType_append]
      rfl

theorem exists_of_scanDescriptor {cs text rest : List Char} {kind : DescriptorKind}
    (h : scanDescriptor cs = some (kind, text, rest)) :
    ∃ descriptor : Descriptor, descriptor.kind = kind ∧ descriptor.text = text ∧
      cs = text ++ rest := by
  unfold scanDescriptor at h
  split at h
  · next hmethod =>
    obtain ⟨rfl, heq⟩ := Prod.mk.inj (Option.some.inj h)
    obtain ⟨rfl, rfl⟩ := Prod.mk.inj heq
    obtain ⟨type, rfl, hcs⟩ := exists_of_scanMethodType hmethod
    exact ⟨.method type, rfl, rfl, hcs⟩
  · obtain ⟨⟨found, after⟩, hfield, heq⟩ := Option.map_eq_some_iff.mp h
    cases heq
    obtain ⟨type, rfl⟩ := exists_of_scanFieldType hfield
    exact ⟨.field type, rfl, rfl, (scanFieldType_eq_some hfield).1⟩

end AccessWidening.Grammar
