import Mathlib.Data.List.Forall2
import Mathlib.Data.List.TakeWhile
import AccessWidening.Text.Blank

/-!
Lines of a text, and what trimming does not see of them: blanks at either end, and so also a
carriage return before a line feed.
-/

namespace AccessWidening

/-! ## Breaking a text into lines -/

theorem textLines_join (a b : List Char) :
    textLines (a ++ '\n' :: b) = textLines a ++ textLines b :=
  List.splitOn_append_cons_self a b

theorem textLines_cons (c : Char) (cs : List Char) :
    textLines (c :: cs) =
      if c = '\n' then [] :: textLines cs else (textLines cs).modifyHead (c :: ·) := by
  simp only [textLines, List.splitOn_cons_eq_if_modifyHead, beq_iff_eq]

/-- A text has one line more than line feeds. -/
theorem length_textLines (cs : List Char) : (textLines cs).length = 1 + cs.count '\n' := by
  induction cs with
  | nil => rfl
  | cons c cs ih =>
      rw [textLines_cons]
      by_cases hc : c = '\n'
      · subst hc
        rw [if_pos rfl, List.length_cons, ih, List.count_cons_self, Nat.add_assoc]
      · rw [if_neg hc, List.length_modifyHead, ih, List.count_cons_of_ne hc]

/-! ## Blanks at the ends of a line -/

/-- Whether a line differs from another by blanks that were put at its ends. -/
def Padded (line padded : List Char) : Prop :=
  ∃ before after, padded = before ++ line ++ after ∧
    ∀ c ∈ before ++ after, isBlank c = true ∧ c ≠ '\n'

theorem trimBlank_append {after : List Char} (hafter : ∀ c ∈ after, isBlank c = true)
    (line : List Char) : trimBlank (line ++ after) = trimBlank line := by
  have hreverse : ∀ c ∈ after.reverse, isBlank c = true := by simpa using hafter
  have hall : after.dropWhile isBlank = [] := List.dropWhile_eq_nil_iff.mpr hafter
  rw [trimBlank, trimBlank, List.dropWhile_append]
  split
  · next hnone =>
    rw [hall, List.isEmpty_iff.mp hnone]
  · rw [List.reverse_append, List.dropWhile_append_of_pos hreverse]

theorem Padded.trimBlank_eq {line padded : List Char} (h : Padded line padded) :
    trimBlank padded = trimBlank line := by
  obtain ⟨before, after, rfl, hblank⟩ := h
  have hbefore : ∀ c ∈ before, isBlank c = true :=
    fun c hc => (hblank c (List.mem_append_left after hc)).1
  have hafter : ∀ c ∈ after, isBlank c = true :=
    fun c hc => (hblank c (List.mem_append_right before hc)).1
  have hfront : trimBlank (before ++ line) = trimBlank line := by
    rw [trimBlank, trimBlank, List.dropWhile_append_of_pos hbefore]
  rw [trimBlank_append hafter, hfront]

/-! ## Carriage returns -/

theorem isBlank_return : isBlank '\r' = true := by decide

/-- Whether a text differs from another by carriage returns that were put before some of its line
feeds. -/
inductive Returned : List Char → List Char → Prop where
  | nil : Returned [] []
  | keep (c : Char) {cs ds : List Char} (rest : Returned cs ds) : Returned (c :: cs) (c :: ds)
  | put {cs ds : List Char} (rest : Returned cs ds) :
      Returned ('\n' :: cs) ('\r' :: '\n' :: ds)

theorem Returned.of_append (line : List Char) {cs ds : List Char} (h : Returned cs ds) :
    Returned (line ++ cs) (line ++ ds) := by
  induction line with
  | nil => exact h
  | cons c _ ih => exact .keep c ih

/-- Carriage returns before line feeds end up at the ends of lines. -/
theorem Returned.textLines {cs ds : List Char} (h : Returned cs ds) :
    List.Forall₂ (fun line other => other = line ∨ other = line ++ ['\r'])
      (AccessWidening.textLines cs) (AccessWidening.textLines ds) := by
  induction h with
  | nil => exact .cons (.inl rfl) .nil
  | keep c _ ih =>
      rw [textLines_cons, textLines_cons]
      split
      · exact .cons (.inl rfl) ih
      · -- the character goes in front of the first line of both texts
        generalize AccessWidening.textLines _ = lines at ih
        generalize AccessWidening.textLines _ = others at ih
        cases ih with
        | nil => exact .nil
        | cons hline hrest =>
            refine .cons ?_ hrest
            rcases hline with rfl | rfl
            · exact .inl rfl
            · exact .inr rfl
  | put _ ih =>
      rw [textLines_cons, if_pos rfl, textLines_cons, if_neg (by decide), textLines_cons,
        if_pos rfl]
      exact .cons (.inr rfl) ih

theorem Returned.padded {cs ds : List Char} (h : Returned cs ds) :
    List.Forall₂ Padded (AccessWidening.textLines cs) (AccessWidening.textLines ds) := by
  refine h.textLines.imp ?_
  rintro line _ (rfl | rfl)
  · exact ⟨[], [], by simp, by simp⟩
  · refine ⟨[], ['\r'], by simp, fun c hc => ?_⟩
    obtain rfl := List.mem_singleton.mp hc
    exact ⟨isBlank_return, by decide⟩

def withoutReturn (line : List Char) : List Char :=
  if line.getLast? = some '\r' then line.dropLast else line

theorem trimBlank_withoutReturn (line : List Char) :
    trimBlank (withoutReturn line) = trimBlank line := by
  unfold withoutReturn
  split
  · next hlast =>
    have hline : line.dropLast ++ ['\r'] = line := by
      rw [List.getLast?_eq_some_iff] at hlast
      obtain ⟨before, rfl⟩ := hlast
      simp
    have hreturn : ∀ c ∈ ['\r'], isBlank c = true := by simp [isBlank_return]
    have htrim := trimBlank_append hreturn line.dropLast
    rwa [hline, eq_comm] at htrim
  · rfl

/-- The lines of a text as a file has them: a line feed ends a line, and takes a carriage return
before it along, and after the last line feed there is a line only if something follows. -/
def fileLines : List (List Char) → List (List Char)
  | [] => []
  | [last] => if last = [] then [] else [last]
  | line :: rest => withoutReturn line :: fileLines rest

end AccessWidening
