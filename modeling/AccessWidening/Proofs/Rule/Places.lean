import Mathlib.Data.List.TakeWhile
import AccessWidening.Proofs.Rule.PrefixFree
import AccessWidening.Proofs.Rule.Reading

/-!
The places in a rule line, told by the text alone: where its access token ends, where blanks end,
and how far a path or a name goes. Each is where the reader of that part stops, if it reads
anything there.
-/

namespace AccessWidening.Grammar

open Syntax

/-! ## Runs -/

/-- A text taken apart behind the longest run of admitted characters that it begins with. -/
structure LongestRun (admitted : Char → Bool) (cs run rest : List Char) : Prop where
  text_eq : cs = run ++ rest
  all : ∀ c ∈ run, admitted c = true
  stops : Stops admitted rest

theorem longestRun_iff {admitted : Char → Bool} {cs run rest : List Char} :
    LongestRun admitted cs run rest ↔
      cs.takeWhile admitted = run ∧ cs.dropWhile admitted = rest := by
  constructor
  · rintro ⟨rfl, hall, hstops⟩
    exact ⟨takeWhile_run hall hstops, dropWhile_run hall hstops⟩
  · rintro ⟨rfl, rfl⟩
    refine ⟨List.takeWhile_append_dropWhile.symm, List.all_eq_true.mp List.all_takeWhile, ?_⟩
    intro c hc
    have hhead := List.head?_dropWhile_not admitted cs
    rw [Option.mem_def.mp hc] at hhead
    simpa using hhead

/-- There is one longest run. -/
theorem LongestRun.unique {admitted : Char → Bool} {cs run rest other after : List Char}
    (h : LongestRun admitted cs run rest) (h' : LongestRun admitted cs other after) :
    run = other ∧ rest = after := by
  obtain ⟨hrun, hrest⟩ := longestRun_iff.mp h
  obtain ⟨hother, hafter⟩ := longestRun_iff.mp h'
  exact ⟨hrun.symm.trans hother, hrest.symm.trans hafter⟩

/-! ## The access token -/

def Markless (cs : List Char) : Prop := ∀ f : Finality, f ≠ .unstated → ¬ f.mark.toList <+: cs

/-- What follows the access token of a line: an access word, and a finality mark if there is one
behind it. -/
def FollowsToken (cs rest : List Char) : Prop :=
  ∃ level : Level, cs = level.text.toList ++ rest ∧ (level.finality = .unstated → Markless rest)

theorem readFinality_of_markless {cs : List Char} (h : Markless cs) :
    readFinality cs = (.unstated, cs) := by
  unfold readFinality
  split
  · exact absurd (List.prefix_append ['+', 'f'] _) (h .addFinal nofun)
  · exact absurd (List.prefix_append ['-', 'f'] _) (h .dropFinal nofun)
  · rfl

theorem markless_of_readFinality {cs rest : List Char} (h : readFinality cs = (.unstated, rest)) :
    Markless cs := by
  rintro f hf ⟨after, rfl⟩
  cases f with
  | unstated => exact hf rfl
  | addFinal => cases h
  | dropFinal => cases h

theorem readLevel_eq_ok_iff {cs rest : List Char} {level : Level} :
    readLevel cs = .ok (level, rest) ↔
      cs = level.text.toList ++ rest ∧ (level.finality = .unstated → Markless rest) := by
  constructor
  · intro h
    refine ⟨readLevel_eq_ok h, ?_⟩
    intro hunstated
    obtain ⟨⟨v, after⟩, -, hafter⟩ := bind_eq_ok h
    obtain ⟨hlevel, hrest⟩ := Prod.mk.inj (Except.ok.inj hafter)
    have hmarkless : Markless after := by
      apply markless_of_readFinality
      exact Prod.ext ((congrArg Level.finality hlevel).trans hunstated) hrest
    have hafter : (readFinality after).2 = rest := hrest
    rw [readFinality_of_markless hmarkless] at hafter
    rwa [← hafter]
  · rintro ⟨rfl, hmarkless⟩
    have hfinality : readFinality (level.finality.mark.toList ++ rest) =
        (level.finality, rest) := by
      cases hlevel : level.finality with
      | unstated => exact readFinality_of_markless (hmarkless hlevel)
      | addFinal => rfl
      | dropFinal => rfl
    simp only [readLevel, Level.text, String.toList_append, List.append_assoc,
      readVisibility_append, bind, Except.bind, hfinality]
    rfl

theorem followsToken_iff {cs rest : List Char} :
    FollowsToken cs rest ↔ ∃ level, readLevel cs = .ok (level, rest) := by
  simp only [FollowsToken, readLevel_eq_ok_iff]

theorem readVisibility_eq_error_iff {cs : List Char} {defect : Defect} :
    readVisibility cs = .error defect ↔
      defect = .accessWord ∧ ∀ v : Visibility, ¬ v.word.toList <+: cs := by
  unfold readVisibility
  dsimp only
  split
  · next v hfound =>
    refine iff_of_false nofun ?_
    rintro ⟨-, hnone⟩
    have hprefix : v.word.toList.isPrefixOf cs = true := by simpa using List.find?_some hfound
    exact hnone v (List.isPrefixOf_iff_prefix.mp hprefix)
  · next hnone =>
    have hwords (v : Visibility) : ¬ v.word.toList <+: cs := by
      have hmem : v ∈ [Visibility.pub, .prot, .package, .priv] := by cases v <;> decide
      rw [← List.isPrefixOf_iff_prefix]
      exact List.find?_eq_none.mp hnone v hmem
    constructor
    · intro h
      exact ⟨(Except.error.inj h).symm, hwords⟩
    · rintro ⟨rfl, -⟩
      rfl

theorem readLevel_eq_error_iff {cs : List Char} {defect : Defect} :
    readLevel cs = .error defect ↔
      defect = .accessWord ∧ ∀ v : Visibility, ¬ v.word.toList <+: cs := by
  rw [← readVisibility_eq_error_iff, readLevel]
  cases readVisibility cs with
  | error other =>
      change Except.error other = .error defect ↔ _
      rw [Except.error.injEq, Except.error.injEq]
  | ok found =>
      constructor
      · intro h
        cases h
      · intro h
        cases h

/-! ## Blanks -/

def FollowsBlanks (cs rest : List Char) : Prop :=
  ∃ blanks, blanks ≠ [] ∧ LongestRun isSeparator cs blanks rest

theorem followsBlanks_iff {cs rest : List Char} :
    FollowsBlanks cs rest ↔ readSeparators cs = .ok rest := by
  constructor
  · rintro ⟨blanks, hne, hrun⟩
    obtain ⟨c, more, rfl⟩ := List.exists_cons_of_ne_nil hne
    obtain rfl := hrun.text_eq
    have hmore : (more ++ rest).dropWhile isSeparator = rest :=
      dropWhile_run (fun d hd => hrun.all d (List.mem_cons_of_mem _ hd)) hrun.stops
    rw [List.cons_append, readSeparators, if_pos (hrun.all c List.mem_cons_self), hmore]
  · intro h
    cases cs with
    | nil => cases h
    | cons c cs =>
        rw [readSeparators] at h
        split at h
        · next hc =>
          obtain rfl := Except.ok.inj h
          refine ⟨c :: cs.takeWhile isSeparator, List.cons_ne_nil _ _, longestRun_iff.mpr ?_⟩
          rw [List.takeWhile_cons_of_pos hc, List.dropWhile_cons_of_pos hc]
          exact ⟨rfl, rfl⟩
        · cases h

theorem readSeparators_eq_error_iff {cs : List Char} {defect : Defect} :
    readSeparators cs = .error defect ↔ defect = .blankAfterAccess ∧ Stops isSeparator cs := by
  cases cs with
  | nil =>
      rw [readSeparators, Except.error.injEq, eq_comm]
      exact (and_iff_left stops_nil).symm
  | cons c cs =>
      rw [readSeparators]
      split
      · next hc =>
        constructor
        · intro h
          cases h
        · rintro ⟨-, hstops⟩
          cases hc.symm.trans (hstops c rfl)
      · next hc =>
        rw [Except.error.injEq, eq_comm]
        exact (and_iff_left (stops_cons (Bool.eq_false_iff.mpr hc))).symm

/-! ## Paths and names -/

/-- Whether a run of path characters is no path: it is empty, or nothing stands on one side of one
of its slashes. -/
def Broken (path : List Char) : Prop := path = [] ∨ [] ∈ path.splitOn '/'

theorem hasFullSegments_iff {path : List Char} : hasFullSegments path = true ↔ ¬ Broken path := by
  have hempty : path = [] → [] ∈ path.splitOn '/' := by
    rintro rfl
    rw [List.splitOn_nil]
    exact List.mem_singleton_self _
  rw [Broken, or_iff_right_of_imp hempty, hasFullSegments, List.all_eq_true]
  constructor
  · intro hfull hmem
    exact absurd rfl (of_decide_eq_true (hfull [] hmem))
  · intro hnot piece hpiece
    rw [decide_eq_true_iff]
    rintro rfl
    exact hnot hpiece

theorem scanPath_eq_some_iff {cs path rest : List Char} :
    scanPath cs = some (path, rest) ↔ LongestRun isPathChar cs path rest ∧ ¬ Broken path := by
  simp only [scanPath, Option.ite_none_right_eq_some, Option.some.injEq, Prod.mk.injEq,
    longestRun_iff, hasFullSegments_iff]
  constructor
  · rintro ⟨hfull, rfl, rfl⟩
    exact ⟨⟨rfl, rfl⟩, hfull⟩
  · rintro ⟨⟨rfl, rfl⟩, hfull⟩
    exact ⟨hfull, rfl, rfl⟩

theorem scanPath_eq_none_iff {cs : List Char} :
    scanPath cs = none ↔ ∃ path rest, LongestRun isPathChar cs path rest ∧ Broken path := by
  simp only [scanPath, ite_eq_right_iff, reduceCtorEq, imp_false, hasFullSegments_iff,
    Classical.not_not, longestRun_iff]
  constructor
  · intro hbroken
    exact ⟨_, _, ⟨rfl, rfl⟩, hbroken⟩
  · rintro ⟨_, _, ⟨rfl, rfl⟩, hbroken⟩
    exact hbroken

theorem scanName_eq_some_iff {cs name rest : List Char} :
    scanName cs = some (name, rest) ↔ LongestRun isNameChar cs name rest ∧ name ≠ [] := by
  simp only [scanName, Option.ite_none_right_eq_some, Option.some.injEq, Prod.mk.injEq,
    longestRun_iff]
  constructor
  · rintro ⟨hne, rfl, rfl⟩
    exact ⟨⟨rfl, rfl⟩, hne⟩
  · rintro ⟨⟨rfl, rfl⟩, hne⟩
    exact ⟨hne, rfl, rfl⟩

theorem scanName_eq_none_iff {cs : List Char} :
    scanName cs = none ↔ ∃ rest, LongestRun isNameChar cs [] rest := by
  simp only [scanName, ite_eq_right_iff, reduceCtorEq, imp_false, ne_eq, Classical.not_not,
    longestRun_iff]
  constructor
  · intro hempty
    exact ⟨_, hempty, rfl⟩
  · rintro ⟨_, hempty, -⟩
    exact hempty

theorem splitAtLastSlash_eq_none_iff {path : List Char} :
    splitAtLastSlash path = none ↔ '/' ∉ path := by
  have hnone : path.reverse.dropWhile (· ≠ '/') = [] ↔ '/' ∉ path := by
    rw [List.dropWhile_eq_nil_iff]
    constructor
    · intro hall hmem
      exact absurd rfl (of_decide_eq_true (hall '/' (List.mem_reverse.mpr hmem)))
    · intro hnot c hc
      rw [decide_eq_true_iff]
      rintro rfl
      exact hnot (List.mem_reverse.mp hc)
  rw [← hnone]
  unfold splitAtLastSlash
  split
  · next heq => exact iff_of_true rfl heq
  · next heq =>
    refine iff_of_false nofun ?_
    rw [heq]
    exact List.cons_ne_nil _ _

/-! ## Descriptors -/

/-- A text that sets out as an object type or an array of one, with a broken class path. -/
def BeginsBrokenClass (cs : List Char) : Prop :=
  ∃ brackets after path rest, (∀ c ∈ brackets, c = '[') ∧ cs = brackets ++ 'L' :: after ∧
    LongestRun isPathChar after path rest ∧ Broken path

theorem namesBadClass_iff {cs : List Char} : namesBadClass cs = true ↔ BeginsBrokenClass cs := by
  constructor
  · intro h
    unfold namesBadClass at h
    split at h
    · next after hafter =>
      obtain ⟨path, rest, hrun, hbroken⟩ := scanPath_eq_none_iff.mp (Option.isNone_iff_eq_none.mp h)
      refine ⟨cs.takeWhile (· = '['), after, path, rest, ?_, ?_, hrun, hbroken⟩
      · intro c hc
        exact of_decide_eq_true (List.all_eq_true.mp List.all_takeWhile c hc)
      · rw [← hafter, List.takeWhile_append_dropWhile]
    · cases h
  · rintro ⟨brackets, after, path, rest, hbrackets, rfl, hrun, hbroken⟩
    have hnone := scanPath_eq_none_iff.mpr ⟨path, rest, hrun, hbroken⟩
    have hdrop : (brackets ++ 'L' :: after).dropWhile (· = '[') = 'L' :: after :=
      dropWhile_run (fun c hc => decide_eq_true (hbrackets c hc)) (stops_cons (by decide))
    rw [namesBadClass, hdrop]
    exact Option.isNone_iff_eq_none.mpr hnone

def FollowsDescriptor (cs rest : List Char) : Prop :=
  ∃ descriptor : Descriptor, FollowsBlanks cs (descriptor.text ++ rest)

/-- Whether blanks are followed by something that does not begin with a descriptor. -/
def LacksDescriptor (cs behind : List Char) : Prop :=
  FollowsBlanks cs behind ∧ ∀ descriptor : Descriptor, ¬ descriptor.text <+: behind

theorem readDescriptor_eq_none_iff {cs rest : List Char} :
    readDescriptor cs = .ok (none, rest) ↔ Stops isSeparator cs ∧ rest = cs := by
  unfold readDescriptor
  split
  · next defect hblanks =>
    obtain ⟨-, hstops⟩ := readSeparators_eq_error_iff.mp hblanks
    rw [Except.ok.injEq, Prod.mk.injEq, and_iff_right rfl, and_iff_right hstops, eq_comm]
  · next behind hblanks =>
    have hnot : ¬ Stops isSeparator cs := by
      intro hstops
      rw [readSeparators_eq_error_iff.mpr ⟨rfl, hstops⟩] at hblanks
      cases hblanks
    refine iff_of_false ?_ fun h => hnot h.1
    split <;> nofun

theorem exists_readDescriptor_eq_some_iff {cs rest : List Char} :
    (∃ found, readDescriptor cs = .ok (some found, rest)) ↔ FollowsDescriptor cs rest := by
  simp only [FollowsDescriptor, followsBlanks_iff]
  unfold readDescriptor
  constructor
  · rintro ⟨found, h⟩
    split at h
    · cases h
    · next behind hblanks =>
      split at h
      · next kind text after hscan =>
        obtain ⟨-, rfl⟩ := Prod.mk.inj (Except.ok.inj h)
        obtain ⟨descriptor, -, rfl, rfl⟩ := scanDescriptor_eq_some_iff.mp hscan
        exact ⟨descriptor, hblanks⟩
      · cases h
  · rintro ⟨descriptor, hblanks⟩
    simp only [hblanks, scanDescriptor_append]
    exact ⟨_, rfl⟩

theorem readDescriptor_eq_error_iff {cs : List Char} {defect : Defect} :
    readDescriptor cs = .error defect ↔ ∃ behind, LacksDescriptor cs behind ∧
      defect = if namesBadClass behind then .descriptorClassName else .descriptor := by
  simp only [LacksDescriptor, followsBlanks_iff, ← not_exists, ← exists_scanDescriptor_iff]
  unfold readDescriptor
  cases hblanks : readSeparators cs with
  | error other =>
      refine iff_of_false nofun ?_
      rintro ⟨behind, ⟨hbehind, -⟩, -⟩
      cases hbehind
  | ok behind =>
      simp only [Except.ok.injEq]
      cases hscan : scanDescriptor behind with
      | none =>
          constructor
          · intro h
            refine ⟨behind, ⟨rfl, ?_⟩, (Except.error.inj h).symm⟩
            rintro ⟨found, hfound⟩
            cases hscan.symm.trans hfound
          · rintro ⟨_, ⟨rfl, -⟩, rfl⟩
            rfl
      | some found =>
          refine iff_of_false nofun ?_
          rintro ⟨_, ⟨rfl, hno⟩, -⟩
          exact hno ⟨found, hscan⟩

end AccessWidening.Grammar
