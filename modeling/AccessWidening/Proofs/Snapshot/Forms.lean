import AccessWidening.Proofs.Snapshot.Payload

/-!
The format of a payload, said without readers: which bytes are a form of a number, a string, an
element, a level, a list of entries and a payload.

A writer uses one form of a value. A number has others too, in more bytes than it needs, and the
readers accept all of them. A reader finds a value exactly where the bytes begin with a form of it.
-/

namespace AccessWidening

namespace Bytes

theorem toNat_lt (bytes : Bytes) : toNat bytes < 256 ^ bytes.length := by
  induction bytes with
  | nil => decide
  | cons b rest ih =>
      have hb : b.toNat < 256 := b.toNat_lt
      rw [toNat, List.length_cons, Nat.pow_succ]
      omega

/-- Bytes are the little-endian form of their own number. -/
theorem littleEndian_toNat (bytes : Bytes) : littleEndian bytes.length (toNat bytes) = bytes := by
  induction bytes with
  | nil => rfl
  | cons b rest ih =>
      have hb : b.toNat < 256 := b.toNat_lt
      have hlow : UInt8.ofNat (b.toNat + 256 * toNat rest) = b := by
        apply UInt8.toNat_inj.mp
        rw [UInt8.toNat_ofNat']
        omega
      have hhigh : (b.toNat + 256 * toNat rest) / 256 = toNat rest := by omega
      rw [toNat, List.length_cons, littleEndian, hlow, hhigh, ih]

end Bytes

namespace Wire

/-- The forms of a number: a small one is a byte of its own, and any number may be a marker with as
many little-endian bytes as the marker says. A place in the format knows markers up to `widest`. -/
inductive NumberForm (widest n : Nat) : Bytes → Prop where
  | small (hsmall : n ≤ 250) : NumberForm widest n [UInt8.ofNat n]
  | marked (marker : UInt8) (hlarge : 250 < marker.toNat) (hknown : marker.toNat ≤ widest)
      (hfits : n < 256 ^ markerWidth marker.toNat) :
      NumberForm widest n (marker :: Bytes.littleEndian (markerWidth marker.toNat) n)

abbrev CountForm : Nat → Bytes → Prop := NumberForm 253

abbrev VariantForm : Nat → Bytes → Prop := NumberForm 252

/-- The forms of a string: the number of its bytes and its UTF-8 form. -/
inductive StringForm (s : String) : Bytes → Prop where
  | mk {size : Bytes} (hsize : CountForm (Bytes.ofString s).length size) :
      StringForm s (size ++ Bytes.ofString s)

inductive OptionalForm : Option String → Bytes → Prop where
  | absent : OptionalForm none [0]
  | present {s : String} {written : Bytes} (hs : StringForm s written) :
      OptionalForm (some s) (1 :: written)

theorem recognizes_readBytes (count : Nat) :
    Recognizes (readBytes count) fun taken written => written = taken ∧ taken.length = count := by
  intro bytes taken rest
  constructor
  · intro h
    unfold readBytes at h
    dsimp only at h
    split at h
    · next hlength =>
      obtain ⟨rfl, rfl⟩ := Prod.mk.inj (Option.some.inj h)
      exact ⟨_, ⟨rfl, hlength⟩, (List.take_append_drop count bytes).symm⟩
    · cases h
  · rintro ⟨_, ⟨rfl, rfl⟩, rfl⟩
    exact (inverts_readBytes _).accepts trivial rest

theorem recognizes_readNumber (widest : Nat) :
    Recognizes (readNumber widest) (NumberForm widest) := by
  intro bytes n rest
  constructor
  · intro h
    cases bytes with
    | nil => cases h
    | cons first tail =>
        simp only [readNumber] at h
        by_cases hsmall : first.toNat ≤ 250
        · rw [if_pos hsmall] at h
          obtain ⟨rfl, rfl⟩ := Prod.mk.inj (Option.some.inj h)
          have hform : NumberForm widest first.toNat [UInt8.ofNat first.toNat] := .small hsmall
          rw [UInt8.ofNat_toNat] at hform
          exact ⟨[first], hform, rfl⟩
        by_cases hknown : first.toNat ≤ widest
        · rw [if_neg hsmall, if_pos hknown] at h
          obtain ⟨⟨digits, left⟩, hdigits, hfound⟩ := Option.map_eq_some_iff.mp h
          obtain ⟨rfl, rfl⟩ := Prod.mk.inj hfound
          obtain ⟨written, ⟨rfl, hlength⟩, rfl⟩ := (recognizes_readBytes _ _ _ _).mp hdigits
          refine ⟨_, .marked first (Nat.lt_of_not_le hsmall) hknown ?_, ?_⟩
          · rw [← hlength]
            exact Bytes.toNat_lt written
          · rw [← hlength, Bytes.littleEndian_toNat]
            rfl
        · rw [if_neg hsmall, if_neg hknown] at h
          cases h
  · rintro ⟨_, hform, rfl⟩
    cases hform with
    | small hsmall =>
        have hread := (inverts_small widest hsmall).accepts trivial rest
        rwa [writeNumber, if_pos hsmall] at hread
    | marked marker hlarge hknown hfits =>
        exact (inverts_marked hlarge hknown rfl hfits).accepts trivial rest

theorem recognizes_readString : Recognizes readString StringForm := by
  unfold readString
  refine Recognizes.congr ((recognizes_readNumber 253).bind fun size =>
    (recognizes_readBytes size).bind fun text =>
      Recognizes.lift (Bytes.toString? text) Recognizes.pure) ?_
  intro s written
  constructor
  · rintro ⟨_, size, _, hsize, ⟨text, _, _, ⟨rfl, rfl⟩, ⟨_, hs, rfl, rfl⟩, rfl⟩, rfl⟩
    obtain rfl := Bytes.toString?_eq_some_iff.mp hs
    rw [List.append_nil]
    exact .mk hsize
  · rintro ⟨hsize⟩
    exact ⟨_, _, _, hsize, ⟨_, _, [], ⟨rfl, rfl⟩, ⟨s, Bytes.toString?_ofString s, rfl, rfl⟩,
      (List.append_nil _).symm⟩, rfl⟩

theorem recognizes_readOptional : Recognizes readOptional OptionalForm := by
  intro bytes value rest
  constructor
  · intro h
    unfold readOptional at h
    split at h
    · obtain ⟨rfl, rfl⟩ := Prod.mk.inj (Option.some.inj h)
      exact ⟨[0], .absent, rfl⟩
    · obtain ⟨⟨s, left⟩, hs, hfound⟩ := Option.map_eq_some_iff.mp h
      obtain ⟨rfl, rfl⟩ := Prod.mk.inj hfound
      obtain ⟨written, hform, rfl⟩ := (recognizes_readString _ _ _).mp hs
      exact ⟨1 :: written, .present hform, rfl⟩
    · cases h
  · rintro ⟨_, hform, rfl⟩
    cases hform with
    | absent => rfl
    | @present s written hs =>
        have hread := (recognizes_readString _ s rest).mpr ⟨written, hs, rfl⟩
        simp only [List.cons_append, readOptional, hread, Option.map_some]

end Wire

open Wire

/-- What follows the number of its alternative and its owner in a form of an element. -/
inductive Element.TailForm : Element → Nat → Bytes → Prop where
  | classItself (name : String) : TailForm (.classItself name) 0 []
  | field {name : String} {descriptor : Option String} {nameForm descriptorForm : Bytes}
      (owner : String) (hname : StringForm name nameForm)
      (hdescriptor : OptionalForm descriptor descriptorForm) :
      TailForm (.field owner name descriptor) 1 (nameForm ++ descriptorForm)
  | method {name descriptor : String} {nameForm descriptorForm : Bytes}
      (owner : String) (hname : StringForm name nameForm)
      (hdescriptor : StringForm descriptor descriptorForm) :
      TailForm (.method owner name descriptor) 2 (nameForm ++ descriptorForm)

inductive Element.Form (e : Element) : Bytes → Prop where
  | mk {variant : Nat} {variantForm ownerForm tailForm : Bytes}
      (hvariant : VariantForm variant variantForm) (howner : StringForm e.owner ownerForm)
      (htail : e.TailForm variant tailForm) : e.Form (variantForm ++ (ownerForm ++ tailForm))

inductive Level.Form (level : Level) : Bytes → Prop where
  | mk {visibilityForm finalityForm : Bytes}
      (hvisibility : VariantForm level.visibility.rank visibilityForm)
      (hfinality : VariantForm level.finality.rank finalityForm) :
      level.Form (visibilityForm ++ finalityForm)

inductive Payload.EntriesForm : List (Element × Level) → Bytes → Prop where
  | nil : EntriesForm [] []
  | cons {e : Element} {level : Level} {rest : List (Element × Level)}
      {elementForm levelForm restForm : Bytes} (helement : e.Form elementForm)
      (hlevel : level.Form levelForm) (hrest : EntriesForm rest restForm) :
      EntriesForm ((e, level) :: rest) (elementForm ++ (levelForm ++ restForm))

inductive Payload.Form (payload : Payload) : Bytes → Prop where
  | mk {classesForm lengthForm entriesForm : Bytes}
      (hclasses : CountForm payload.classCount classesForm)
      (hlength : CountForm payload.entries.length lengthForm)
      (hentries : EntriesForm payload.entries entriesForm) :
      payload.Form (classesForm ++ (lengthForm ++ entriesForm))

theorem Visibility.ofRank?_eq_some_iff {rank : Nat} {v : Visibility} :
    ofRank? rank = some v ↔ v.rank = rank := by
  constructor
  · intro h
    unfold ofRank? at h
    split at h
    all_goals cases h <;> rfl
  · rintro rfl
    exact ofRank?_rank v

theorem Finality.ofRank?_eq_some_iff {rank : Nat} {f : Finality} :
    ofRank? rank = some f ↔ f.rank = rank := by
  constructor
  · intro h
    unfold ofRank? at h
    split at h
    all_goals cases h <;> rfl
  · rintro rfl
    exact ofRank?_rank f

/-- A name with a descriptor after it, of whatever kind, that an element is made of. -/
theorem Element.recognizes_named {β : Type} {read : Reader β} {form : β → Bytes → Prop}
    (hread : Recognizes read form) (make : String → β → Element) :
    Recognizes (fun bytes => do
      let (name, bytes) ← readString bytes
      let (descriptor, bytes) ← read bytes
      return (make name descriptor, bytes)) fun e written =>
        ∃ name descriptor nameForm descriptorForm, e = make name descriptor ∧
          StringForm name nameForm ∧ form descriptor descriptorForm ∧
          written = nameForm ++ descriptorForm := by
  have hafter (name : String) : Recognizes
      (fun bytes => read bytes >>= fun found => some (make name found.1, found.2)) fun e written =>
        ∃ descriptor first second, form descriptor first ∧
          (e = make name descriptor ∧ second = []) ∧ written = first ++ second :=
    hread.bind fun descriptor => Recognizes.pure (make name descriptor)
  refine Recognizes.congr (recognizes_readString.bind hafter) ?_
  intro e written
  constructor
  · rintro ⟨name, nameForm, _, hname, ⟨descriptor, _, _, hdescriptor, ⟨rfl, rfl⟩, rfl⟩, rfl⟩
    exact ⟨name, descriptor, nameForm, _, rfl, hname, hdescriptor, by rw [List.append_nil]⟩
  · rintro ⟨name, descriptor, nameForm, descriptorForm, rfl, hname, hdescriptor, rfl⟩
    exact ⟨name, nameForm, _, hname, ⟨descriptor, _, [], hdescriptor, ⟨rfl, rfl⟩,
      (List.append_nil _).symm⟩, rfl⟩

namespace Element

variable {e : Element} {owner : String} {written : Bytes}

theorem tailForm_zero_iff :
    e = .classItself owner ∧ written = [] ↔ e.owner = owner ∧ e.TailForm 0 written := by
  constructor
  · rintro ⟨rfl, rfl⟩
    exact ⟨rfl, .classItself owner⟩
  · rintro ⟨rfl, ⟨⟩⟩
    exact ⟨rfl, rfl⟩

theorem tailForm_one_iff :
    (∃ name descriptor nameForm descriptorForm, e = .field owner name descriptor ∧
      StringForm name nameForm ∧ OptionalForm descriptor descriptorForm ∧
      written = nameForm ++ descriptorForm) ↔ e.owner = owner ∧ e.TailForm 1 written := by
  constructor
  · rintro ⟨_, _, _, _, rfl, hname, hdescriptor, rfl⟩
    exact ⟨rfl, .field owner hname hdescriptor⟩
  · rintro ⟨rfl, _ | ⟨_, hname, hdescriptor⟩⟩
    exact ⟨_, _, _, _, rfl, hname, hdescriptor, rfl⟩

theorem tailForm_two_iff :
    (∃ name descriptor nameForm descriptorForm, e = .method owner name descriptor ∧
      StringForm name nameForm ∧ StringForm descriptor descriptorForm ∧
      written = nameForm ++ descriptorForm) ↔ e.owner = owner ∧ e.TailForm 2 written := by
  constructor
  · rintro ⟨_, _, _, _, rfl, hname, hdescriptor, rfl⟩
    exact ⟨rfl, .method owner hname hdescriptor⟩
  · rintro ⟨rfl, _ | _ | ⟨_, hname, hdescriptor⟩⟩
    exact ⟨_, _, _, _, rfl, hname, hdescriptor, rfl⟩

/-- There are three alternatives. -/
theorem TailForm.variant_cases {variant : Nat} (h : e.TailForm variant written) :
    variant = 0 ∨ variant = 1 ∨ variant = 2 := by
  cases h <;> simp

theorem recognizes_read : Recognizes Element.read Element.Form := by
  have hread : Recognizes Element.read fun e written => ∃ variant variantForm afterVariant,
      VariantForm variant variantForm ∧ (∃ owner ownerForm tailForm, StringForm owner ownerForm ∧
        (e.owner = owner ∧ e.TailForm variant tailForm) ∧ afterVariant = ownerForm ++ tailForm) ∧
      written = variantForm ++ afterVariant := by
    unfold Element.read
    apply (recognizes_readNumber 252).bind
    intro variant
    apply recognizes_readString.bind
    intro owner
    dsimp only
    split
    · exact (Recognizes.pure _).congr fun _ _ => tailForm_zero_iff
    · exact (recognizes_named recognizes_readOptional (.field owner)).congr fun _ _ =>
        tailForm_one_iff
    · exact (recognizes_named recognizes_readString (.method owner)).congr fun _ _ =>
        tailForm_two_iff
    · next hzero hone htwo =>
      refine Recognizes.none.congr fun e written => iff_of_false id ?_
      rintro ⟨_, htail⟩
      rcases htail.variant_cases with rfl | rfl | rfl
      · exact hzero rfl
      · exact hone rfl
      · exact htwo rfl
  refine hread.congr fun e written => ?_
  constructor
  · rintro ⟨_, _, _, hvariant, ⟨_, _, _, howner, ⟨rfl, htail⟩, rfl⟩, rfl⟩
    exact .mk hvariant howner htail
  · rintro ⟨hvariant, howner, htail⟩
    exact ⟨_, _, _, hvariant, ⟨_, _, _, howner, ⟨rfl, htail⟩, rfl⟩, rfl⟩

end Element

theorem Level.recognizes_read : Recognizes Level.read Level.Form := by
  unfold Level.read
  refine Recognizes.congr ((recognizes_readNumber 252).bind fun rank =>
    Recognizes.lift (Visibility.ofRank? rank) fun visibility =>
      (recognizes_readNumber 252).bind fun rank =>
        Recognizes.lift (Finality.ofRank? rank) fun finality => Recognizes.pure _) ?_
  intro level written
  constructor
  · rintro ⟨_, _, _, hvisibility, ⟨visibility, hrank, _, _, _, hfinality,
      ⟨finality, hrank', rfl, rfl⟩, rfl⟩, rfl⟩
    obtain rfl := Visibility.ofRank?_eq_some_iff.mp hrank
    obtain rfl := Finality.ofRank?_eq_some_iff.mp hrank'
    rw [List.append_nil]
    exact .mk hvisibility hfinality
  · rintro ⟨hvisibility, hfinality⟩
    exact ⟨_, _, _, hvisibility, ⟨_, Visibility.ofRank?_eq_some_iff.mpr rfl, _, _, _, hfinality,
      ⟨_, Finality.ofRank?_eq_some_iff.mpr rfl, rfl, rfl⟩, (List.append_nil _).symm⟩, rfl⟩

namespace Payload

theorem recognizes_readEntries (count : Nat) :
    Recognizes (readEntries count) fun entries written =>
      entries.length = count ∧ EntriesForm entries written := by
  induction count with
  | zero =>
      refine (Recognizes.pure []).congr ?_
      intro entries written
      constructor
      · rintro ⟨rfl, rfl⟩
        exact ⟨rfl, .nil⟩
      · rintro ⟨hlength, hentries⟩
        cases hentries with
        | nil => exact ⟨rfl, rfl⟩
        | cons _ _ _ => cases hlength
  | succ count ih =>
      rw [funext fun bytes => readEntries.eq_2 bytes count]
      refine Recognizes.congr (Element.recognizes_read.bind fun e =>
        Level.recognizes_read.bind fun level => ih.bind fun entries => Recognizes.pure _) ?_
      intro entries written
      constructor
      · rintro ⟨e, _, _, helement, ⟨level, _, _, hlevel, ⟨rest, _, _, ⟨hlength, hrest⟩, ⟨rfl, rfl⟩,
          rfl⟩, rfl⟩, rfl⟩
        rw [List.append_nil]
        exact ⟨congrArg Nat.succ hlength, .cons helement hlevel hrest⟩
      · rintro ⟨hlength, hentries⟩
        cases hentries with
        | nil => cases hlength
        | cons helement hlevel hrest =>
            exact ⟨_, _, _, helement, ⟨_, _, _, hlevel, ⟨_, _, [], ⟨Nat.succ.inj hlength, hrest⟩,
              ⟨rfl, rfl⟩, (List.append_nil _).symm⟩, rfl⟩, rfl⟩

/-- A payload is read where the bytes begin with a form of it, and only there. -/
theorem recognizes_read : Recognizes Payload.read Payload.Form := by
  unfold Payload.read
  refine Recognizes.congr ((recognizes_readNumber 253).bind fun classCount =>
    (recognizes_readNumber 253).bind fun count =>
      (recognizes_readEntries count).bind fun entries => Recognizes.pure _) ?_
  intro payload written
  constructor
  · rintro ⟨classCount, _, _, hclasses, ⟨_, _, _, hlength, ⟨entries, _, _, ⟨rfl, hentries⟩,
      ⟨rfl, rfl⟩, rfl⟩, rfl⟩, rfl⟩
    rw [List.append_nil]
    exact .mk hclasses hlength hentries
  · rintro ⟨hclasses, hlength, hentries⟩
    exact ⟨_, _, _, hclasses, ⟨_, _, _, hlength, ⟨_, _, [], ⟨rfl, hentries⟩, ⟨rfl, rfl⟩,
      (List.append_nil _).symm⟩, rfl⟩, rfl⟩

end Payload

end AccessWidening
