import AccessWidening.Proofs.RuleSet.CanonicalText

/-!
When the canonical text of a rule set tells which set it is.

An element is written without its kind, with separators that an arbitrary name may contain, and on a
line that an arbitrary name may break. Where names keep clear of the separators, and a descriptor
starts with a parenthesis exactly for a method, the written form can be taken apart again, and a
canonical text is the text of one set only.
-/

namespace AccessWidening

open Grammar

namespace Element

/-- Whether the names of an element keep clear of the characters that its written form puts between
them, and its descriptor tells a method from a field. -/
structure Legible (e : Element) : Prop where
  owner_clear : ∀ c ∈ e.owner.toList, c ∉ [' ', '\n', '.']
  name_clear : ∀ c ∈ e.memberName.toList, c ∉ [' ', '\n', '.', '/']
  unbroken : ∀ descriptor ∈ e.descriptor?, '\n' ∉ descriptor.toList
  method_iff : ∀ descriptor ∈ e.descriptor?,
    e.kind = .method ↔ descriptor.toList.head? = some '('

def stem : Element → List Char
  | classItself name => name.toList
  | field owner name none => owner.toList ++ '.' :: name.toList
  | field owner name (some _) => owner.toList ++ '/' :: name.toList
  | method owner name _ => owner.toList ++ '/' :: name.toList

def tail (e : Element) : List Char :=
  match e.descriptor? with
  | none => []
  | some descriptor => ' ' :: descriptor.toList

theorem toList_text (e : Element) : e.text.toList = e.stem ++ e.tail := by
  cases e with
  | classItself name => simp [text, stem, tail, descriptor?]
  | field owner name descriptor =>
      cases descriptor <;> simp [text, stem, tail, descriptor?]
  | method owner name descriptor => simp [text, stem, tail, descriptor?]

theorem tail_injective {e f : Element} (h : e.tail = f.tail) : e.descriptor? = f.descriptor? := by
  unfold tail at h
  cases he : e.descriptor? with
  | none =>
      cases hf : f.descriptor? with
      | none => rfl
      | some descriptor => simp [he, hf] at h
  | some descriptor =>
      cases hf : f.descriptor? with
      | none => simp [he, hf] at h
      | some other =>
          have hsame : descriptor.toList = other.toList := by simpa [he, hf] using h
          rw [String.toList_inj.mp hsame]

def joint (e : Element) : Char := if e.descriptor?.isSome then '/' else '.'

theorem stem_of_isMember {e : Element} (h : e.isMember = true) :
    e.stem = e.owner.toList ++ e.joint :: e.memberName.toList := by
  cases e with
  | classItself name => cases h
  | field owner name descriptor => cases descriptor <;> rfl
  | method owner name descriptor => rfl

/-- The kind that an element must have for what its written form shows of it. -/
def kindOf (stem : List Char) : Option String → Kind
  | none => if '.' ∈ stem then .field else .classItself
  | some descriptor => if descriptor.toList.head? = some '(' then .method else .field

theorem isMember_congr {e f : Element} (h : e.kind = f.kind) : e.isMember = f.isMember := by
  cases e <;> cases f <;> first | rfl | cases h

theorem exists_classItself {e : Element} (h : e.isMember = false) :
    ∃ name, e = classItself name := by
  cases e with
  | classItself name => exact ⟨name, rfl⟩
  | field _ _ _ => cases h
  | method _ _ _ => cases h

namespace Legible

variable {e f : Element}

theorem space_not_mem_stem (h : e.Legible) : ' ' ∉ e.stem := by
  have howner : ' ' ∉ e.owner.toList := fun hmem => h.owner_clear _ hmem (by decide)
  have hname : ' ' ∉ e.memberName.toList := fun hmem => h.name_clear _ hmem (by decide)
  cases e with
  | classItself name => exact howner
  | field owner name descriptor =>
      cases descriptor <;> simpa [stem] using ⟨howner, hname⟩
  | method owner name descriptor => simpa [stem] using ⟨howner, hname⟩

theorem newline_not_mem_text (h : e.Legible) : '\n' ∉ e.text.toList := by
  have howner : '\n' ∉ e.owner.toList := fun hmem => h.owner_clear _ hmem (by decide)
  have hname : '\n' ∉ e.memberName.toList := fun hmem => h.name_clear _ hmem (by decide)
  have hdescriptor := h.unbroken
  cases e with
  | classItself name => exact howner
  | field owner name descriptor =>
      cases descriptor with
      | none => simpa [text] using ⟨howner, hname⟩
      | some descriptor => simpa [text] using ⟨howner, hname, hdescriptor descriptor rfl⟩
  | method owner name descriptor =>
      simpa [text] using ⟨howner, hname, hdescriptor descriptor rfl⟩

/-- Up to its first space, a written form is what stands before the descriptor. -/
theorem stem_and_tail_eq (he : e.Legible) (hf : f.Legible) (h : e.text = f.text) :
    e.stem = f.stem ∧ e.tail = f.tail := by
  have hrun {k : Element} (hk : k.Legible) : ∀ c ∈ k.stem, (decide (c ≠ ' ')) = true := by
    intro c hc
    rw [decide_eq_true_iff]
    rintro rfl
    exact hk.space_not_mem_stem hc
  have hstop (k : Element) : Stops (fun c => decide (c ≠ ' ')) k.tail := by
    unfold tail
    split
    · exact stops_nil
    · exact stops_cons (by decide)
  have hsame : e.stem ++ e.tail = f.stem ++ f.tail := by
    rw [← toList_text, ← toList_text, h]
  constructor
  · rw [← takeWhile_run (hrun he) (hstop e), hsame, takeWhile_run (hrun hf) (hstop f)]
  · rw [← dropWhile_run (hrun he) (hstop e), hsame, dropWhile_run (hrun hf) (hstop f)]

/-- The kind of an element can be read off its written form. -/
theorem kind_eq (h : e.Legible) : e.kind = kindOf e.stem e.descriptor? := by
  cases e with
  | classItself name =>
      have hdot : '.' ∉ name.toList := fun hmem => h.owner_clear _ hmem (by decide)
      exact (if_neg hdot).symm
  | field owner name descriptor =>
      cases descriptor with
      | none => exact (if_pos (by simp [stem])).symm
      | some descriptor =>
          have hmethod := (h.method_iff descriptor rfl).not.mp (by simp [kind])
          exact (if_neg hmethod).symm
  | method owner name descriptor =>
      have hmethod := (h.method_iff descriptor rfl).mp rfl
      exact (if_pos hmethod).symm

/-- The name of a member follows the last separator. -/
theorem memberName_and_owner_eq (he : e.Legible) (hf : f.Legible) (hmember : e.isMember = true)
    (hmember' : f.isMember = true) (hstem : e.stem = f.stem) :
    e.memberName = f.memberName ∧ e.owner = f.owner := by
  have hrun {k : Element} (hk : k.Legible) :
      ∀ c ∈ k.memberName.toList.reverse, (decide (c ∉ ['.', '/'])) = true := by
    intro c hc
    have hclear := hk.name_clear c (List.mem_reverse.mp hc)
    simp only [List.mem_cons, not_or] at hclear
    simp [hclear]
  have hstop (k : Element) :
      Stops (fun c => decide (c ∉ ['.', '/'])) (k.joint :: k.owner.toList.reverse) := by
    apply stops_cons
    unfold joint
    split <;> decide
  have hreverse {k : Element} (hk : k.isMember = true) :
      k.stem.reverse = k.memberName.toList.reverse ++ k.joint :: k.owner.toList.reverse := by
    simp [stem_of_isMember hk]
  have hsame := congrArg List.reverse hstem
  rw [hreverse hmember, hreverse hmember'] at hsame
  have hname := takeWhile_run (hrun he) (hstop e)
  have howner := dropWhile_run (hrun he) (hstop e)
  rw [hsame, takeWhile_run (hrun hf) (hstop f)] at hname
  rw [hsame, dropWhile_run (hrun hf) (hstop f)] at howner
  have hname' := List.reverse_injective hname
  have howner' := List.reverse_injective (List.cons.inj howner).2
  exact ⟨(String.toList_inj.mp hname').symm, (String.toList_inj.mp howner').symm⟩

/-- A written form is that of one element only. -/
theorem eq_of_text_eq (he : e.Legible) (hf : f.Legible) (h : e.text = f.text) : e = f := by
  obtain ⟨hstem, htail⟩ := he.stem_and_tail_eq hf h
  have hdescriptor := tail_injective htail
  have hkind : e.kind = f.kind := by rw [he.kind_eq, hf.kind_eq, hstem, hdescriptor]
  cases hmember : e.isMember with
  | true =>
      have hmember' : f.isMember = true := by rwa [← isMember_congr hkind]
      obtain ⟨hname, howner⟩ := he.memberName_and_owner_eq hf hmember hmember' hstem
      exact eq_of_parts hkind howner hname hdescriptor
  | false =>
      have hmember' : f.isMember = false := by rwa [← isMember_congr hkind]
      obtain ⟨name, rfl⟩ := exists_classItself hmember
      obtain ⟨other, rfl⟩ := exists_classItself hmember'
      rw [String.toList_inj.mp hstem]

end Legible

end Element

def shown (entry : Element × Level) : Level × String := (entry.2, entry.1.text)

def shownLine (pair : Level × String) : List Char := pair.1.text.toList ++ ' ' :: pair.2.toList

theorem toList_entryLine_eq (entry : Element × Level) :
    (entryLine entry).toList = shownLine (shown entry) ++ ['\n'] := by
  simp [entryLine, shownLine, shown]

/-- A line states a level, and a written form after it. -/
theorem shownLine_injective : Function.Injective shownLine := by
  rintro ⟨level, text⟩ ⟨level', text'⟩ h
  have hstop (written : String) : Stops isSign (' ' :: written.toList) := stops_cons (by decide)
  have hread := readLevel_append level (hstop text)
  have hread' := readLevel_append level' (hstop text')
  change level.text.toList ++ ' ' :: text.toList = level'.text.toList ++ ' ' :: text'.toList at h
  rw [h, hread'] at hread
  obtain ⟨hlevel, hrest⟩ := Prod.mk.inj (Except.ok.inj hread)
  rw [hlevel, String.toList_inj.mp (List.cons.inj hrest).2]

/-- The lines of a canonical text are those of its entries, if no name breaks one. -/
theorem textLines_entryLines {entries : List (Element × Level)}
    (hunbroken : ∀ entry ∈ entries, '\n' ∉ entry.1.text.toList) :
    textLines (String.join (entries.map entryLine)).toList =
      (entries.map shown).map shownLine ++ [[]] := by
  induction entries with
  | nil => rfl
  | cons entry rest ih =>
      obtain ⟨hentry, hrest⟩ := List.forall_mem_cons.mp hunbroken
      have hlevel : '\n' ∉ entry.2.text.toList := (solid_levelText entry.2).trimmed.unbroken
      have hline : '\n' ∉ shownLine (shown entry) := by simp [shownLine, shown, hlevel, hentry]
      rw [List.map_cons, String.join_cons, String.toList_append, toList_entryLine_eq,
        List.append_assoc]
      have hsplit := List.splitOn_append_cons_self_of_not_mem hline
        (String.join (rest.map entryLine)).toList
      rw [textLines, List.singleton_append, hsplit, ← textLines, ih hrest]
      rfl

namespace RuleSet

def Legible (rules : RuleSet) : Prop := ∀ e ∈ rules.elements, e.Legible

variable {a b : RuleSet}

/-- Where no name breaks a line, a canonical text tells the levels and the written forms of the
entries, and nothing else. -/
theorem canonicalText_eq_iff_of_unbroken (ha : ∀ e ∈ a.elements, '\n' ∉ e.text.toList)
    (hb : ∀ e ∈ b.elements, '\n' ∉ e.text.toList) :
    a.canonicalText = b.canonicalText ↔ a.entries.map shown = b.entries.map shown := by
  have hlines {rules : RuleSet} (hunbroken : ∀ e ∈ rules.elements, '\n' ∉ e.text.toList) :
      textLines rules.canonicalText.toList = (rules.entries.map shown).map shownLine ++ [[]] :=
    textLines_entryLines fun entry hentry => hunbroken entry.1 (List.mem_map_of_mem hentry)
  constructor
  · intro h
    have hsame := hlines ha
    rw [h, hlines hb] at hsame
    exact (List.map_injective_iff.mpr shownLine_injective (List.append_cancel_right hsame)).symm
  · intro h
    have hjoined (rules : RuleSet) : rules.canonicalText =
        String.join ((rules.entries.map shown).map fun pair =>
          String.ofList (shownLine pair ++ ['\n'])) := by
      rw [canonicalText, List.map_map]
      congr 2
      funext entry
      exact String.toList_inj.mp (by rw [toList_entryLine_eq]; simp)
    rw [hjoined, hjoined, h]

theorem Legible.unbroken (h : a.Legible) : ∀ e ∈ a.elements, '\n' ∉ e.text.toList :=
  fun e he => (h e he).newline_not_mem_text

theorem mem_entries_of_shown_eq (ha : a.Legible) (hb : b.Legible)
    (h : a.entries.map shown = b.entries.map shown) : ∀ entry ∈ a.entries, entry ∈ b.entries := by
  intro entry hentry
  have hmem : shown entry ∈ b.entries.map shown := h ▸ List.mem_map_of_mem hentry
  obtain ⟨other, hother, hsame⟩ := List.mem_map.mp hmem
  obtain ⟨hlevel, htext⟩ := Prod.mk.inj hsame
  have helement : other.1 = entry.1 := (hb _ (List.mem_map_of_mem hother)).eq_of_text_eq
    (ha _ (List.mem_map_of_mem hentry)) htext
  exact Prod.ext helement hlevel ▸ hother

/-- A canonical text is that of one legible set only. -/
theorem canonicalText_eq_iff (ha : a.Legible) (hb : b.Legible) :
    a.canonicalText = b.canonicalText ↔ a = b := by
  constructor
  · intro h
    rw [canonicalText_eq_iff_of_unbroken ha.unbroken hb.unbroken] at h
    apply ext_level?
    intro e
    apply Option.ext
    intro level
    rw [level?_eq_some_iff, level?_eq_some_iff]
    exact ⟨mem_entries_of_shown_eq ha hb h (e, level),
      mem_entries_of_shown_eq hb ha h.symm (e, level)⟩
  · rintro rfl
    rfl

end RuleSet

/-! ## Rule text is legible -/

namespace Grammar

theorem Path.clear (path : Path) :
    ∀ c ∈ (String.ofList path.text).toList, c ∉ [' ', '\n', '.'] := by
  rw [String.toList_ofList]
  intro c hc hmem
  have hadmitted := path.isPathChar_of_mem c hc
  simp only [List.mem_cons, List.not_mem_nil, or_false] at hmem
  rcases hmem with rfl | rfl | rfl <;> exact absurd hadmitted (by decide)

theorem Segment.clear (name : Segment) :
    ∀ c ∈ (String.ofList name.chars).toList, c ∉ [' ', '\n', '.', '/'] := by
  rw [String.toList_ofList]
  intro c hc hmem
  have hadmitted := name.isNameChar_of_mem c hc
  simp only [List.mem_cons, List.not_mem_nil, or_false] at hmem
  rcases hmem with rfl | rfl | rfl | rfl <;> exact absurd hadmitted (by decide)

theorem FieldType.head?_text_ne (type : FieldType) : type.text.head? ≠ some '(' := by
  intro hhead
  obtain ⟨rest, hrest⟩ := List.head?_eq_some_iff.mp hhead
  have hstarts := FieldType.starts ((List.append_nil type.text).trans hrest)
  exact absurd hstarts (by decide)

/-- The text of a descriptor tells the kind of the member that it belongs to. -/
theorem Descriptor.legible_element (owner : Path) (name : Segment) (descriptor : Descriptor) :
    (descriptor.element owner name).Legible := by
  cases descriptor with
  | field type =>
      have hunbroken : '\n' ∉ type.text := type.solid.trimmed.unbroken
      refine ⟨owner.clear, name.clear, ?_, ?_⟩
      · rintro _ ⟨⟩
        rwa [String.toList_ofList]
      · rintro _ ⟨⟩
        rw [String.toList_ofList]
        exact iff_of_false nofun type.head?_text_ne
  | method type =>
      have hunbroken : '\n' ∉ type.text := type.solid.trimmed.unbroken
      refine ⟨owner.clear, name.clear, ?_, ?_⟩
      · rintro _ ⟨⟩
        rwa [String.toList_ofList]
      · rintro _ ⟨⟩
        rw [String.toList_ofList]
        exact iff_of_true rfl rfl

theorem Target.legible_element (target : Target) : target.element.Legible := by
  cases target with
  | classItself path => exact ⟨path.clear, nofun, nofun, nofun⟩
  | byName owner name => exact ⟨owner.clear, name.clear, nofun, nofun⟩
  | dotted owner name _ descriptor => exact descriptor.legible_element owner name
  | slashed owner name _ descriptor => exact descriptor.legible_element owner name

end Grammar

/-- Sets that were made from rule text are legible. -/
theorem RuleSet.FromText.legible {rules : RuleSet} (h : rules.FromText) : rules.Legible := by
  intro e he
  obtain ⟨target, rfl⟩ := h.writable e he
  exact target.legible_element

end AccessWidening
