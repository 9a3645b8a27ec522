import WordMachine.Assembly.Grammar
import WordMachine.Proofs.Assembly.Renaming
import WordMachine.Proofs.Parsing.Offsets
import WordMachine.Proofs.Parsing.Relations

/-! # Programs in another case

The grammar reads letters in any case, and it takes the names of labels as they are written.  So a text in another
case is read as the same statements with the names of their labels in that case, or it fails at the same place.
-/

namespace WordMachine.Assembly

open Parsing Parser Grammar

/-- How letters may change their case: in the names of labels, outside of them, and what becomes of a name. -/
structure Recasing where
  inName : Char → Char → Prop
  outside : Char → Char → Prop
  rename : String → String
  inName_case : ∀ {a b}, inName a b → a.toLower = b.toLower
  outside_case : ∀ {a b}, outside a b → a.toLower = b.toLower
  renames : ∀ {name again}, List.Forall₂ inName name again → String.ofList again = rename (String.ofList name)

namespace Recasing

/-- A text in another case.  The flag says whether the text starts inside the name of a label: behind an `@` and
    before the first character that is not part of a name. -/
inductive Alike (recasing : Recasing) : Bool → List Char → List Char → Prop where
  | nil {named : Bool} : Alike recasing named [] []
  | name {a b : Char} {text again : List Char} (word : isWord a = true) (letter : recasing.inName a b)
      (others : Alike recasing true text again) : Alike recasing true (a :: text) (b :: again)
  | other {named : Bool} {a b : Char} {text again : List Char} (free : named = true → isWord a = false)
      (letter : recasing.outside a b) (others : Alike recasing (a == '@') text again) :
      Alike recasing named (a :: text) (b :: again)

instance decidableAlike (recasing : Recasing) [DecidableRel recasing.inName] [DecidableRel recasing.outside] :
    ∀ (named : Bool) (text again : List Char), Decidable (recasing.Alike named text again)
  | _, [], [] => isTrue .nil
  | _, [], _ :: _ => isFalse nofun
  | _, _ :: _, [] => isFalse nofun
  | named, a :: text, b :: again =>
      if inside : named = true ∧ isWord a = true then
        have := decidableAlike recasing true text again
        decidable_of_iff (recasing.inName a b ∧ recasing.Alike true text again) ⟨
          fun ⟨letter, others⟩ => inside.1 ▸ .name inside.2 letter others, by
            rintro (_ | ⟨_, letter, others⟩ | ⟨free, _, _⟩)
            · exact ⟨letter, others⟩
            · rw [free inside.1] at inside
              cases inside.2⟩
      else
        have := decidableAlike recasing (a == '@') text again
        decidable_of_iff (recasing.outside a b ∧ recasing.Alike (a == '@') text again) ⟨
          fun ⟨letter, others⟩ =>
            .other (fun same => Bool.eq_false_iff.2 fun word => inside ⟨same, word⟩) letter others, by
            rintro (_ | ⟨word, _, _⟩ | ⟨_, letter, others⟩)
            · exact absurd ⟨rfl, word⟩ inside
            · exact ⟨letter, others⟩⟩

variable {recasing : Recasing} {named : Bool} {text again : List Char}

section Texts

theorem Alike.map_toLower (alike : recasing.Alike named text again) :
    text.map Char.toLower = again.map Char.toLower := by
  induction alike with
  | nil => rfl
  | name _ letter _ ih => rw [List.map_cons, List.map_cons, recasing.inName_case letter, ih]
  | other _ letter _ ih => rw [List.map_cons, List.map_cons, recasing.outside_case letter, ih]

theorem Alike.utf8Length_eq (alike : recasing.Alike named text again) : utf8Length text = utf8Length again := by
  rw [← utf8Length_map_toLower text, alike.map_toLower, utf8Length_map_toLower]

theorem Alike.exists_drop (alike : recasing.Alike named text again) (count : Nat) :
    ∃ named, recasing.Alike named (text.drop count) (again.drop count) := by
  induction count generalizing named text again with
  | zero => exact ⟨named, alike⟩
  | succ count ih =>
      cases alike with
      | nil => exact ⟨named, .nil⟩
      | name _ _ others => exact ih others
      | other _ _ others => exact ih others

/-- Without an `@` in front, what is left does not start inside a name. -/
theorem Alike.drop (alike : recasing.Alike false text again) {count : Nat}
    (unmarked : ∀ c ∈ text.take count, c ≠ '@') : recasing.Alike false (text.drop count) (again.drop count) := by
  induction count generalizing text again with
  | zero => exact alike
  | succ count ih =>
      cases alike with
      | nil => exact .nil
      | @other _ a _ _ _ _ _ others =>
          obtain ⟨first, unmarked⟩ := List.forall_mem_cons.1 unmarked
          rw [beq_false_of_ne first] at others
          exact ih others unmarked

/-- A text that starts with no character of a name starts outside of any name. -/
theorem Alike.free (alike : recasing.Alike named text again)
    (unnamed : ∀ c, text.head? = some c → isWord c = false) : recasing.Alike false text again := by
  cases alike with
  | nil => exact .nil
  | name word _ _ =>
      rw [unnamed _ rfl] at word
      cases word
  | other _ letter others => exact .other (fun absurd => by cases absurd) letter others

end Texts

section Classes

variable {member : Char → Bool}

/-- A class that does not tell cases apart. -/
def Caseless (member : Char → Bool) : Prop := ∀ {a b : Char}, a.toLower = b.toLower → member a = member b

theorem map_takeWhile (caseless : Caseless member) (text : List Char) :
    (text.takeWhile member).map Char.toLower = (text.map Char.toLower).takeWhile member := by
  have same : member ∘ Char.toLower = member := funext fun c => caseless (Char.toLower_toLower_eq_toLower c)
  rw [List.takeWhile_map, same]

theorem length_takeWhile_eq (caseless : Caseless member)
    (letters : text.map Char.toLower = again.map Char.toLower) :
    (text.takeWhile member).length = (again.takeWhile member).length := by
  have same := congrArg (List.length ∘ List.takeWhile member) letters
  simpa only [Function.comp_apply, ← map_takeWhile caseless, List.length_map] using same

theorem head?_eq_iff {c : Char} (plain : c.isAlpha = false)
    (letters : text.map Char.toLower = again.map Char.toLower) : text.head? = some c ↔ again.head? = some c := by
  cases text with
  | nil => rw [List.map_eq_nil_iff.1 letters.symm]
  | cons a text =>
      cases again with
      | nil => cases letters
      | cons b again =>
          rw [List.head?_cons, List.head?_cons, Option.some_inj, Option.some_inj]
          exact Text.eq_iff_of_toLower_eq plain (List.cons.inj letters).1

theorem startsNoCase_eq (spelling : List Char) (letters : text.map Char.toLower = again.map Char.toLower) :
    Pattern.startsNoCase spelling text = Pattern.startsNoCase spelling again := by
  induction spelling generalizing text again with
  | nil => rfl
  | cons s spelling ih =>
      cases text with
      | nil => rw [List.map_eq_nil_iff.1 letters.symm]
      | cons a text =>
          cases again with
          | nil => cases letters
          | cons b again =>
              obtain ⟨letter, letters⟩ := List.cons.inj letters
              simp only [Pattern.startsNoCase, Pattern.sameLetter, letter, ih letters]

end Classes

section Matches

/-- A pattern that does not tell cases apart and does not end inside the name of a label. -/
theorem respects_matched {pattern : Pattern}
    (blind : ∀ {text again : List Char}, text.map Char.toLower = again.map Char.toLower →
      pattern.matchLength? text = pattern.matchLength? again)
    (ends : ∀ {text : List Char} {length : Nat}, pattern.matchLength? text = some length →
      (∀ c ∈ text.take length, c ≠ '@') ∨ ∀ c, (text.drop length).head? = some c → isWord c = false) :
    Respects (recasing.Alike false) (fun _ _ => True) (matched pattern) := by
  intro text again alike
  simp only [matched, ← blind alike.map_toLower]
  cases found : pattern.matchLength? text with
  | none => exact .failed alike
  | some length =>
      refine .parsed trivial ?_
      rcases ends found with unmarked | unnamed
      · exact alike.drop unmarked
      · obtain ⟨named, rests⟩ := alike.exists_drop length
        exact rests.free unnamed

theorem respects_char {c : Char} (plain : c.isAlpha = false) (unmarked : c ≠ '@') :
    Respects (recasing.Alike false) (fun _ _ => True) (matched (.char c)) := by
  apply respects_matched
  · intro text again letters
    simp only [Pattern.matchLength?, head?_eq_iff plain letters]
  · intro text length found
    simp only [Pattern.matchLength?, Option.ite_none_right_eq_some, Option.some.injEq] at found
    obtain ⟨head, rfl⟩ := found
    obtain ⟨others, rfl⟩ := List.head?_eq_some_iff.1 head
    exact .inl (by simpa using unmarked)

theorem respects_takeWhile1 {member : Char → Bool} (caseless : Caseless member)
    (unmarked : member '@' = false) :
    Respects (recasing.Alike false) (fun _ _ => True) (matched (.takeWhile1 member)) := by
  apply respects_matched
  · intro text again letters
    simp only [Pattern.matchLength?, length_takeWhile_eq caseless letters]
  · intro text length found
    simp only [Pattern.matchLength?, Option.ite_none_left_eq_some, Option.some.injEq] at found
    obtain ⟨-, rfl⟩ := found
    rw [(cut_takeWhile member text).1]
    refine .inl fun c listed => ?_
    rintro rfl
    rw [List.all_eq_true.1 List.all_takeWhile _ listed] at unmarked
    cases unmarked

theorem caseless_inline : Caseless (· ≠ '\n') := by
  intro a b letters
  simp only [ne_eq, Text.eq_iff_of_toLower_eq (show '\n'.isAlpha = false from rfl) letters]

/-- A comment may hold names, but it ends where no name goes on. -/
theorem respects_lineComment {marker : Char} (plain : marker.isAlpha = false) :
    Respects (recasing.Alike false) (fun _ _ => True) (matched (.lineComment marker)) := by
  apply respects_matched
  · intro text again letters
    simp only [Pattern.matchLength?, head?_eq_iff plain letters, length_takeWhile_eq caseless_inline letters]
  · intro text length found
    simp only [Pattern.matchLength?, Option.ite_none_right_eq_some, Option.some.injEq] at found
    obtain ⟨-, rfl⟩ := found
    rw [(cut_takeWhile (· ≠ '\n') text).2]
    refine .inr fun c head => ?_
    obtain rfl : c = '\n' := by simpa using head?_dropWhile _ _ c head
    rfl

/-- The spelling of a word has no `@` in any case. -/
def Unmarked (spelling : List Char) : Prop := '@' ∉ spelling.map Char.toLower

instance (spelling : List Char) : Decidable (Unmarked spelling) :=
  inferInstanceAs (Decidable ('@' ∉ spelling.map Char.toLower))

theorem unmarked_take {spelling : List Char} (unmarked : Unmarked spelling)
    (starts : Pattern.startsNoCase spelling text = true) : ∀ c ∈ text.take spelling.length, c ≠ '@' := by
  have letters := (startsNoCase_iff.1 starts).letters
  intro c listed
  rintro rfl
  have lowered := List.mem_map_of_mem (f := Char.toLower) listed
  rw [letters] at lowered
  exact unmarked lowered

theorem respects_noCase {spelling : List Char} (unmarked : Unmarked spelling) :
    Respects (recasing.Alike false) (fun _ _ => True) (matched (.noCase spelling)) := by
  apply respects_matched
  · intro text again letters
    simp only [Pattern.matchLength?, Pattern.noCaseLength?, startsNoCase_eq spelling letters]
  · intro text length found
    obtain ⟨starts, rfl⟩ := Pattern.noCaseLength?_eq_some_iff.1 found
    exact .inl (unmarked_take unmarked starts)

theorem respects_anyNoCase {spellings : List (List Char)} (unmarked : ∀ spelling ∈ spellings, Unmarked spelling) :
    Respects (recasing.Alike false) (fun _ _ => True) (matched (.anyNoCase spellings)) := by
  apply respects_matched
  · intro text again letters
    simp only [Pattern.matchLength?, Pattern.noCaseLength?, startsNoCase_eq _ letters]
  · intro text length found
    obtain ⟨spelling, listed, read⟩ := List.mem_filterMap.1 (List.max?_mem found)
    obtain ⟨starts, rfl⟩ := Pattern.noCaseLength?_eq_some_iff.1 read
    exact .inl (unmarked_take (unmarked spelling listed) starts)

end Matches

section Names

theorem caseless_isWord : Caseless isWord := by
  intro a b same
  have word : ∀ c, c.isAlpha = true → isWord c = true := by
    intro c letter
    simp [isWord, Char.isAlphanum, letter]
  exact Text.eq_of_toLower_eq isWord word same

/-- Digits have no case, so that a number does not change. -/
theorem takeWhile_isDigit_eq (letters : text.map Char.toLower = again.map Char.toLower) :
    text.takeWhile Char.isDigit = again.takeWhile Char.isDigit := by
  have same : ∀ text : List Char, (text.map Char.toLower).takeWhile Char.isDigit = text.takeWhile Char.isDigit := by
    intro text
    rw [← map_takeWhile Text.isDigit_eq_of_toLower_eq]
    refine (List.map_congr_left fun c listed => ?_).trans (List.map_id _)
    apply Text.toLower_of_not_isAlpha
    intro letter
    have digit := List.all_eq_true.1 List.all_takeWhile c listed
    rw [Text.isDigit_eq_false_of_isAlpha letter] at digit
    cases digit
  rw [← same text, letters, same]

theorem respects_literal : Respects (recasing.Alike false) Eq literal := by
  intro text again alike
  have digits : Respects (recasing.Alike false) (fun _ _ => True) (matched (.takeWhile1 Char.isDigit)) :=
    respects_takeWhile1 Text.isDigit_eq_of_toLower_eq rfl
  unfold literal
  obtain ⟨_, _, rest, behind, one, two, -, rests⟩ | ⟨rest, behind, one, two, rests⟩ := digits.cases alike
  · have front := (matched_takeWhile1_eq_parsed_iff.1 one).eq_takeWhile
    have back := (matched_takeWhile1_eq_parsed_iff.1 two).eq_takeWhile
    rw [takeWhile_isDigit_eq alike.map_toLower, back] at front
    subst front
    simp only [one, two]
    split
    · exact .parsed rfl rests
    · exact .failed alike
  · simp only [one, two]
    exact .failed rests

/-- A name ends at the same place in any case. -/
theorem Alike.split_name (alike : recasing.Alike true text again) :
    List.Forall₂ recasing.inName (text.takeWhile isWord) (again.takeWhile isWord) ∧
      recasing.Alike false (text.dropWhile isWord) (again.dropWhile isWord) := by
  generalize inside : true = named at alike
  induction alike with
  | nil => exact ⟨.nil, .nil⟩
  | @name a b text again word letter others ih =>
      have word' : isWord b = true := caseless_isWord (recasing.inName_case letter) ▸ word
      obtain ⟨names, rests⟩ := ih rfl
      simp only [List.takeWhile_cons_of_pos word, List.takeWhile_cons_of_pos word', List.dropWhile_cons_of_pos word,
        List.dropWhile_cons_of_pos word']
      exact ⟨.cons letter names, rests⟩
  | @other named a b text again free letter others =>
      have plain : ¬ isWord a = true := Bool.eq_false_iff.1 (free inside.symm)
      have plain' : ¬ isWord b = true := caseless_isWord (recasing.outside_case letter) ▸ plain
      simp only [List.takeWhile_cons_of_neg plain, List.takeWhile_cons_of_neg plain', List.dropWhile_cons_of_neg plain,
        List.dropWhile_cons_of_neg plain']
      exact ⟨.nil, .other (fun absurd => by cases absurd) letter others⟩

theorem matched_takeWhile1_eq (member : Char → Bool) (text : List Char) : matched (.takeWhile1 member) text =
    if text.takeWhile member = [] then .failed text
    else .parsed (text.takeWhile member) (text.dropWhile member) := by
  obtain ⟨front, back⟩ := cut_takeWhile member text
  by_cases none : text.takeWhile member = []
  · simp only [matched, Pattern.matchLength?, none, List.length_nil, if_true]
  · simp only [matched, Pattern.matchLength?, List.length_eq_zero_iff, if_neg none, front, back]

theorem label_cons (text : List Char) : label ('@' :: text) =
    if text.takeWhile isWord = [] then .failed ('@' :: text)
    else .parsed (String.ofList (text.takeWhile isWord)) (text.dropWhile isWord) := by
  have marker : matched (.char '@') ('@' :: text) = .parsed ['@'] text := rfl
  by_cases none : text.takeWhile isWord = []
  · simp only [label, thenRead, Parser.mapValue, both, marker, matched_takeWhile1_eq, if_pos none]
    rfl
  · simp only [label, thenRead, Parser.mapValue, both, marker, matched_takeWhile1_eq, if_neg none]
    rfl

theorem label_of_head (unmarked : text.head? ≠ some '@') : label text = .failed text := by
  simp only [label, thenRead, Parser.mapValue, both, matched, Pattern.matchLength?, if_neg unmarked]
  rfl

theorem respects_label : Respects (recasing.Alike false) (fun name again => again = recasing.rename name) label := by
  intro text again alike
  have heads := head?_eq_iff (c := '@') rfl alike.map_toLower
  by_cases marked : text.head? = some '@'
  · obtain ⟨name, rfl⟩ := List.head?_eq_some_iff.1 marked
    obtain ⟨renamed, rfl⟩ := List.head?_eq_some_iff.1 (heads.1 marked)
    cases alike with
    | other free letter others =>
        obtain ⟨names, rests⟩ := others.split_name
        have empty : name.takeWhile isWord = [] ↔ renamed.takeWhile isWord = [] := by
          rw [← List.length_eq_zero_iff, names.length_eq, List.length_eq_zero_iff]
        simp only [label_cons, empty]
        split
        · exact .failed (.other free letter others)
        · exact .parsed (recasing.renames names) rests
  · rw [label_of_head marked, label_of_head (mt heads.2 marked)]
    exact .failed alike

end Names

end Recasing

end WordMachine.Assembly
