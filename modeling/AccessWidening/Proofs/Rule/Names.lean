import AccessWidening.Proofs.Rule.Grammar

/-!
Names and paths are read as the grammar has them. Both are runs: a reader takes a name from the
front of a text when what follows cannot go on with it, and whatever it takes is a name.
-/

namespace AccessWidening.Grammar

open Syntax

/-- Whether a text does not go on with an admitted character. -/
def Stops (admitted : Char → Bool) (rest : List Char) : Prop := ∀ c ∈ rest.head?, admitted c = false

section Runs

variable {admitted : Char → Bool} {run rest : List Char}

theorem stops_nil : Stops admitted [] := by
  intro c hc
  cases hc

theorem stops_cons {c : Char} (hc : admitted c = false) : Stops admitted (c :: rest) := by
  intro d hd
  obtain rfl := Option.some.inj hd
  exact hc

theorem takeWhile_run (hrun : ∀ c ∈ run, admitted c = true) (hstop : Stops admitted rest) :
    (run ++ rest).takeWhile admitted = run := by
  rw [List.takeWhile_append_of_pos hrun]
  cases rest with
  | nil => simp
  | cons c rest =>
      have hc : admitted c = false := hstop c rfl
      simp [hc]

theorem dropWhile_run (hrun : ∀ c ∈ run, admitted c = true) (hstop : Stops admitted rest) :
    (run ++ rest).dropWhile admitted = rest := by
  rw [List.dropWhile_append_of_pos hrun]
  cases rest with
  | nil => rfl
  | cons c rest =>
      have hc : admitted c = false := hstop c rfl
      simp [hc]

end Runs

/-! ## Names -/

theorem isPathChar_iff {c : Char} :
    isPathChar c = true ↔ isBlank c = false ∧ (c ∉ delimiters ∨ c = '/') := by
  simp only [isPathChar, delimiters, Bool.and_eq_true, Bool.not_eq_true', decide_eq_true_eq,
    List.mem_cons, List.not_mem_nil, or_false, not_or, ne_eq]
  constructor
  · rintro ⟨⟨⟨⟨⟨hblank, hdot⟩, hsemi⟩, hbracket⟩, hopen⟩, hclose⟩
    by_cases hslash : c = '/'
    · exact ⟨hblank, .inr hslash⟩
    · exact ⟨hblank, .inl ⟨hdot, hsemi, hbracket, hslash, hopen, hclose⟩⟩
  · rintro ⟨hblank, ⟨hdot, hsemi, hbracket, -, hopen, hclose⟩ | rfl⟩
    · exact ⟨⟨⟨⟨⟨hblank, hdot⟩, hsemi⟩, hbracket⟩, hopen⟩, hclose⟩
    · decide

theorem isNameChar_iff {c : Char} :
    isNameChar c = true ↔ isBlank c = false ∧ c ∉ delimiters := by
  rw [isNameChar, Bool.and_eq_true, isPathChar_iff, decide_eq_true_iff]
  constructor
  · rintro ⟨⟨hblank, hname | hslash⟩, hne⟩
    · exact ⟨hblank, hname⟩
    · exact absurd hslash hne
  · rintro ⟨hblank, hname⟩
    refine ⟨⟨hblank, .inl hname⟩, ?_⟩
    rintro rfl
    exact hname (by decide)

namespace Segment

variable (name : Segment)

theorem isNameChar_of_mem : ∀ c ∈ name.chars, isNameChar c = true :=
  fun c hc => isNameChar_iff.mpr (name.admitted c hc)

theorem isPathChar_of_mem : ∀ c ∈ name.chars, isPathChar c = true := by
  intro c hc
  obtain ⟨hblank, hname⟩ := name.admitted c hc
  exact isPathChar_iff.mpr ⟨hblank, .inl hname⟩

theorem slash_not_mem : '/' ∉ name.chars := by
  intro hslash
  exact (name.admitted _ hslash).2 (by decide)

end Segment

theorem scanName_append (name : Segment) {rest : List Char} (hstop : Stops isNameChar rest) :
    scanName (name.chars ++ rest) = some (name.chars, rest) := by
  simp only [scanName, takeWhile_run name.isNameChar_of_mem hstop,
    dropWhile_run name.isNameChar_of_mem hstop]
  rw [if_pos name.nonempty]

theorem exists_of_scanName {cs text rest : List Char} (h : scanName cs = some (text, rest)) :
    ∃ name : Segment, name.chars = text := by
  simp only [scanName, Option.ite_none_right_eq_some, Option.some.injEq, Prod.mk.injEq] at h
  obtain ⟨hne, rfl, -⟩ := h
  refine ⟨⟨_, hne, ?_⟩, rfl⟩
  intro c hc
  exact isNameChar_iff.mp (List.all_eq_true.mp List.all_takeWhile c hc)

/-! ## Paths -/

namespace Path

def segments (path : Path) : List Segment := path.first :: path.more

def snoc (path : Path) (name : Segment) : Path := ⟨path.first, path.more ++ [name]⟩

theorem text_snoc (path : Path) (name : Segment) :
    (path.snoc name).text = path.text ++ '/' :: name.chars := by
  simp [text, snoc]

/-- A path is a single name, or a path and one more name. -/
theorem eq_single_or_snoc (path : Path) :
    path.more = [] ∨ ∃ owner name, path = snoc owner name := by
  rcases List.eq_nil_or_concat path.more with hnil | ⟨more, name, hmore⟩
  · exact .inl hnil
  · refine .inr ⟨⟨path.first, more⟩, name, ?_⟩
    rw [List.concat_eq_append] at hmore
    rw [snoc, ← hmore]

theorem text_eq_intercalate (path : Path) :
    path.text = ['/'].intercalate (path.segments.map Segment.chars) := by
  obtain ⟨first, more⟩ := path
  induction more generalizing first with
  | nil => simp [text, segments]
  | cons next more ih =>
      have hrest := ih next
      simp only [text, segments, List.map_cons] at hrest ⊢
      rw [List.intercalate_cons_cons, ← hrest]
      simp

theorem splitOn_text (path : Path) :
    path.text.splitOn '/' = path.segments.map Segment.chars := by
  rw [text_eq_intercalate]
  apply List.splitOn_intercalate
  · intro piece hpiece
    obtain ⟨name, -, rfl⟩ := List.mem_map.mp hpiece
    exact name.slash_not_mem
  · simp [segments]

theorem text_injective {a b : Path} (h : a.text = b.text) : a = b := by
  have hpieces : a.segments.map Segment.chars = b.segments.map Segment.chars := by
    rw [← splitOn_text, h, splitOn_text]
  have hsegments : a.segments = b.segments :=
    List.map_inj_right (fun _ _ => Segment.ext) |>.mp hpieces
  obtain ⟨hfirst, hmore⟩ := List.cons.inj hsegments
  exact Path.ext hfirst hmore

theorem isPathChar_of_mem (path : Path) : ∀ c ∈ path.text, isPathChar c = true := by
  intro c hc
  rcases List.mem_append.mp hc with hfirst | hmore
  · exact path.first.isPathChar_of_mem c hfirst
  · obtain ⟨name, -, hname⟩ := List.mem_flatMap.mp hmore
    rcases List.mem_cons.mp hname with rfl | hname
    · decide
    · exact name.isPathChar_of_mem c hname

theorem hasFullSegments_text (path : Path) : hasFullSegments path.text = true := by
  rw [hasFullSegments, splitOn_text, List.all_map, List.all_eq_true]
  intro name _
  simpa using name.nonempty

end Path

theorem scanPath_append (path : Path) {rest : List Char} (hstop : Stops isPathChar rest) :
    scanPath (path.text ++ rest) = some (path.text, rest) := by
  simp only [scanPath, takeWhile_run path.isPathChar_of_mem hstop,
    dropWhile_run path.isPathChar_of_mem hstop]
  rw [if_pos path.hasFullSegments_text]

/-- The pieces between slashes contain no slash, and nothing that was not there before. -/
theorem mem_of_mem_splitOn {cs piece : List Char} (hpiece : piece ∈ cs.splitOn '/') :
    ∀ c ∈ piece, c ∈ cs ∧ c ≠ '/' := by
  induction cs generalizing piece with
  | nil =>
      rw [List.splitOn_nil, List.mem_singleton] at hpiece
      subst hpiece
      intro c hc
      cases hc
  | cons d cs ih =>
      rw [List.splitOn_cons_eq_if_modifyHead] at hpiece
      split at hpiece
      · rcases List.mem_cons.mp hpiece with rfl | hpiece
        · intro c hc
          cases hc
        · intro c hc
          obtain ⟨hmem, hne⟩ := ih hpiece c hc
          exact ⟨List.mem_cons_of_mem _ hmem, hne⟩
      · next hd =>
        cases hsplit : cs.splitOn '/' with
        | nil => exact absurd hsplit (List.splitOn_ne_nil '/' cs)
        | cons first more =>
            rw [hsplit] at hpiece ih
            rcases List.mem_cons.mp hpiece with rfl | hpiece
            · intro c hc
              rcases List.mem_cons.mp hc with rfl | hc
              · exact ⟨List.mem_cons_self, by simpa using hd⟩
              · obtain ⟨hmem, hne⟩ := ih List.mem_cons_self c hc
                exact ⟨List.mem_cons_of_mem _ hmem, hne⟩
            · intro c hc
              obtain ⟨hmem, hne⟩ := ih (List.mem_cons_of_mem _ hpiece) c hc
              exact ⟨List.mem_cons_of_mem _ hmem, hne⟩

theorem exists_segments {pieces : List (List Char)}
    (h : ∀ piece ∈ pieces, ∃ name : Segment, name.chars = piece) :
    ∃ names : List Segment, names.map Segment.chars = pieces := by
  induction pieces with
  | nil => exact ⟨[], rfl⟩
  | cons piece rest ih =>
      obtain ⟨⟨name, rfl⟩, hrest⟩ := List.forall_mem_cons.mp h
      obtain ⟨names, rfl⟩ := ih hrest
      exact ⟨name :: names, rfl⟩

theorem exists_of_scanPath {cs text rest : List Char} (h : scanPath cs = some (text, rest)) :
    ∃ path : Path, path.text = text := by
  simp only [scanPath, Option.ite_none_right_eq_some, Option.some.injEq, Prod.mk.injEq] at h
  obtain ⟨hfull, rfl, -⟩ := h
  obtain ⟨names, hnames⟩ := exists_segments fun piece hpiece => by
    have hne : piece ≠ [] := by simpa using List.all_eq_true.mp hfull piece hpiece
    refine ⟨⟨piece, hne, ?_⟩, rfl⟩
    intro c hc
    obtain ⟨hmem, hslash⟩ := mem_of_mem_splitOn hpiece c hc
    obtain ⟨hblank, hname⟩ := isPathChar_iff.mp (List.all_eq_true.mp List.all_takeWhile c hmem)
    exact ⟨hblank, hname.resolve_right hslash⟩
  cases names with
  | nil => exact absurd hnames.symm (List.splitOn_ne_nil _ _)
  | cons first more =>
      refine ⟨⟨first, more⟩, ?_⟩
      rw [Path.text_eq_intercalate, Path.segments, hnames, List.intercalate_splitOn]

/-! ## The last name of a path -/

theorem splitAtLastSlash_append {owner name : List Char} (hname : '/' ∉ name) :
    splitAtLastSlash (owner ++ '/' :: name) = some (owner, name) := by
  have hrun : ∀ c ∈ name.reverse, decide (c ≠ '/') = true := by
    intro c hc
    rw [decide_eq_true_iff]
    rintro rfl
    exact hname (List.mem_reverse.mp hc)
  have hstop : Stops (fun c => decide (c ≠ '/')) ('/' :: owner.reverse) := stops_cons (by decide)
  have hreverse : (owner ++ '/' :: name).reverse = name.reverse ++ '/' :: owner.reverse := by simp
  rw [splitAtLastSlash, hreverse, takeWhile_run hrun hstop, dropWhile_run hrun hstop]
  simp

/-- A path is split at its last slash exactly when it is a path and one more name. -/
theorem splitAtLastSlash_text {path : Path} {owner name : List Char} :
    splitAtLastSlash path.text = some (owner, name) ↔
      ∃ before last, path = Path.snoc before last ∧ before.text = owner ∧ last.chars = name := by
  constructor
  · intro hsplit
    rcases path.eq_single_or_snoc with hsingle | ⟨before, last, rfl⟩
    · -- a single name has no slash, so the search runs off its beginning
      have hrun : ∀ c ∈ path.text.reverse, decide (c ≠ '/') = true := by
        intro c hc
        rw [decide_eq_true_iff]
        rintro rfl
        rw [List.mem_reverse, Path.text, hsingle, List.flatMap_nil, List.append_nil] at hc
        exact path.first.slash_not_mem hc
      have hnone : path.text.reverse.dropWhile (· ≠ '/') = [] := by
        rw [← List.append_nil path.text.reverse]
        exact dropWhile_run hrun stops_nil
      rw [splitAtLastSlash, hnone] at hsplit
      cases hsplit
    · rw [Path.text_snoc, splitAtLastSlash_append last.slash_not_mem] at hsplit
      obtain ⟨rfl, rfl⟩ := Prod.mk.inj (Option.some.inj hsplit)
      exact ⟨before, last, rfl, rfl, rfl⟩
  · rintro ⟨before, last, rfl, rfl, rfl⟩
    rw [Path.text_snoc, splitAtLastSlash_append last.slash_not_mem]

end AccessWidening.Grammar
