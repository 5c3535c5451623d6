import AccessWidening.Proofs.Rule.LineByLine
import AccessWidening.Proofs.RuleStore.Loading

/-!
Rule text can be put together and taken apart at its line feeds, and laid out freely.

Texts that are joined by a line feed are read one after the other, and so are they loaded. Blanks at
the ends of lines, carriage returns before line feeds, and lines without a rule between the others
are no part of what a text says.
-/

namespace AccessWidening

open Rule

/-- What it means for the texts of a source that they are read line by line. -/
structure Rule.ReadsByLine (source : String) : Prop where
  /-- Two texts that are accepted are accepted together, the second one from a later line on. -/
  joined : ∀ {a b : String} {first second : List Rule}, ofText source a = .ok first →
    ofText source b = .ok second →
    ofText source (a ++ "\n" ++ b) = .ok (first ++ second.map (below (1 + a.toList.count '\n')))
  /-- What the first text is refused for, the two are refused for. -/
  joined_of_first_refused : ∀ {a : String} {error : SourceError}, ofText source a = .error error →
    ∀ b, ofText source (a ++ "\n" ++ b) = .error error
  /-- If only the second text is refused, the two are refused for the same, at a later line. -/
  joined_of_second_refused : ∀ {a b : String} {first : List Rule} {error : SourceError},
    ofText source a = .ok first → ofText source b = .error error →
    ofText source (a ++ "\n" ++ b) = .error (error.below (1 + a.toList.count '\n'))
  /-- The rules of an accepted text stand on lines with increasing numbers. -/
  increasing : ∀ {text : String} {found : List Rule}, ofText source text = .ok found →
    found.Pairwise fun a b => a.line < b.line
  /-- They are the rules that its lines hold, counted from one. -/
  mem_iff : ∀ {text : String} {found : List Rule}, ofText source text = .ok found →
    ∀ rule, rule ∈ found ↔ ∃ i raw, (textLines text.toList)[i]? = some raw ∧
      Holds raw rule.level rule.element ∧ rule.line = 1 + i
  /-- A text is refused for the first of its lines that is refused. -/
  error_iff : ∀ {text : String} {error : SourceError}, ofText source text = .error error ↔
    ∃ i raw defect,
      FirstAt (fun raw => ∃ defect, Refused raw defect) (textLines text.toList) i raw ∧
        Refused raw defect ∧ error = ⟨source, 1 + i, .ofList (trimBlank raw), defect⟩
  /-- Blanks at the ends of lines change nothing. -/
  padded : ∀ {a b : String}, List.Forall₂ Padded (textLines a.toList) (textLines b.toList) →
    ofText source b = ofText source a
  /-- Carriage returns before line feeds change nothing. -/
  returned : ∀ {a b : String}, Returned a.toList b.toList → ofText source b = ofText source a
  /-- Nor does it matter whether carriage returns and an empty last line are taken for a part of
  the lines. -/
  ofFileLines : ∀ text : String,
    ofLines source 1 (fileLines (textLines text.toList)) = ofText source text
  /-- Further lines without a rule change the numbers of lines, and nothing else. -/
  interspersed : ∀ {a b : String}, Interspersed (textLines a.toList) (textLines b.toList) →
    Outcome.numberless (ofText source b) = Outcome.numberless (ofText source a)

theorem Rule.readsByLine (source : String) : ReadsByLine source where
  joined ha hb := by
    rw [ofText_join, ha, hb]
    rfl
  joined_of_first_refused ha b := by
    rw [ofText_join, ha]
    rfl
  joined_of_second_refused ha hb := by
    rw [ofText_join, ha, hb]
    rfl
  increasing := pairwise_line_of_ofLines
  mem_iff h _ := mem_ofLines_iff h
  error_iff := ofLines_eq_error_iff
  padded := ofLines_padded source 1
  returned h := ofLines_padded source 1 h.padded
  ofFileLines text := ofLines_fileLines source 1 (textLines text.toList)
  interspersed := numberless_ofLines_interspersed source 1 1

namespace RuleStore

/-- What it means for a store that texts are loaded line by line. -/
structure LoadsByLine (store : RuleStore) : Prop where
  /-- Two texts, loaded one after the other, do what the joined text does, and count as many
  rules. -/
  joined : ∀ {source other a b : String} {middle after : RuleStore} {m n : Nat},
    store.addText source a = .ok (middle, m) → middle.addText other b = .ok (after, n) →
    ∀ both : String, store.addText both (a ++ "\n" ++ b) = .ok (after, m + n)
  /-- Loading a text fails exactly as reading it does. -/
  error_iff : ∀ {source text : String} {error : SourceError},
    store.addText source text = .error error ↔ Rule.ofText source text = .error error

theorem addAll_append (store : RuleStore) (first second : List (Element × Level)) :
    store.addAll (first ++ second) = (store.addAll first).addAll second :=
  List.foldl_append

theorem loadsByLine (store : RuleStore) : store.LoadsByLine where
  joined {source other a b middle after m n} hfirst hsecond both := by
    obtain ⟨first, ha, rfl, rfl⟩ := addText_eq_ok hfirst
    obtain ⟨second, hb, rfl, rfl⟩ := addText_eq_ok hsecond
    have hread := (readsByLine both).joined (ofLines_eq_ok_of_source both ha)
      (ofLines_eq_ok_of_source both hb)
    rw [addText_of_rules store hread, List.length_append, List.length_map, List.map_append,
      List.map_map, addAll_append]
    rfl
  error_iff {source text error} := by
    constructor
    · intro h
      cases hread : Rule.ofText source text with
      | error other =>
          rw [addText_of_error store hread] at h
          rw [Except.error.inj h]
      | ok found =>
          rw [addText_of_rules store hread] at h
          cases h
    · exact addText_of_error store

end RuleStore

/-- Rule text is read line by line and loaded line by line, and a text that is refused leaves the
store that it was to be loaded into as it was. -/
theorem rule_text_is_linewise :
    (∀ source : String, ReadsByLine source) ∧ (∀ store : RuleStore, store.LoadsByLine) ∧
      ∀ (loading : Loading) (source text : String) (error : SourceError),
        ofText source text = .error error → (loading.text source text).store = loading.store := by
  refine ⟨readsByLine, RuleStore.loadsByLine, ?_⟩
  intro loading source text error herror
  rw [Loading.store, RuleStore.addText_of_error loading.store herror]

/-- A text that ends in a line feed, and one whose second line is refused: together they are refused
for their fourth line. With a carriage return before its line feed, the first text says the
same. -/
theorem joined_text_of_refused_second :
    ofText "rules.at" "public a/B\n" = .ok [⟨1, ⟨.pub, .unstated⟩, .classItself "a/B"⟩] ∧
      ofText "rules.at" "# fields\n\tpublic a/B." =
        .error ⟨"rules.at", 2, "public a/B.", .memberName⟩ ∧
      ofText "rules.at" ("public a/B\n" ++ "\n" ++ "# fields\n\tpublic a/B.") =
        .error ⟨"rules.at", 4, "public a/B.", .memberName⟩ ∧
      Returned "public a/B\n".toList "public a/B\r\n".toList ∧
      ofText "rules.at" "public a/B\r\n" = ofText "rules.at" "public a/B\n" := by
  obtain ⟨hreads, -, -⟩ := rule_text_is_linewise
  have haccepted :
      ofText "rules.at" "public a/B\n" = .ok [⟨1, ⟨.pub, .unstated⟩, .classItself "a/B"⟩] := rfl
  have hrefused : ofText "rules.at" "# fields\n\tpublic a/B." =
      .error ⟨"rules.at", 2, "public a/B.", .memberName⟩ := rfl
  have hreturned : Returned "public a/B\n".toList "public a/B\r\n".toList :=
    Returned.of_append "public a/B".toList (.put .nil)
  exact ⟨haccepted, hrefused, (hreads "rules.at").joined_of_second_refused haccepted hrefused,
    hreturned, (hreads "rules.at").returned hreturned⟩

end AccessWidening
