import Mathlib.Data.List.DropRight
import SpeechGrammar.Proofs.Printing.Layout
import SpeechGrammar.Proofs.Printing.Weight
import SpeechGrammar.Proofs.Source.Written

/-!
# Printed tokens are read back

Names, words and tags are printed as they stand, so they are read back as long
as nothing in them ends them early.  A name between angle brackets never does,
a word without quotes ends at the next character that cannot be part of one,
and words between quotes and tags must hold neither the character that closes
them nor a backslash.
-/

namespace SpeechGrammar

namespace Text

theorem trimEnd_eq_rdropWhile (text : List Char) : trimEnd text = text.rdropWhile isBlank := by
  induction text with
  | nil => rfl
  | cons char rest ih =>
      rw [trimEnd, ih, List.rdropWhile, List.rdropWhile, List.reverse_cons, List.dropWhile_append]
      cases hkept : rest.reverse.dropWhile isBlank with
      | nil => cases hblank : isBlank char <;> simp [hblank]
      | cons last kept =>
          rw [List.isEmpty_cons, if_neg Bool.false_ne_true, List.reverse_append]
          cases hreversed : (last :: kept).reverse with
          | nil => simp at hreversed
          | cons first more => rfl

theorem mem_of_mem_trim {char : Char} {text : List Char} (hchar : char ∈ trim text) :
    char ∈ text := by
  rw [trim, trimEnd_eq_rdropWhile] at hchar
  exact (List.dropWhile_suffix _).subset ((List.rdropWhile_prefix _ _).subset hchar)

theorem mem_trim_of_not_isBlank {char : Char} {text : List Char} (hchar : char ∈ text)
    (hsolid : isBlank char = false) : char ∈ trim text := by
  have hkeep : ∀ {list : List Char}, char ∈ list → char ∈ list.dropWhile isBlank := by
    intro list hmem
    rw [← List.takeWhile_append_dropWhile (p := isBlank) (l := list)] at hmem
    refine (List.mem_append.mp hmem).resolve_left fun hdropped => ?_
    have hblank := List.all_eq_true.mp List.all_takeWhile char hdropped
    rw [hsolid] at hblank
    cases hblank
  rw [trim, trimEnd_eq_rdropWhile]
  exact List.mem_reverse.mpr (hkeep (List.mem_reverse.mpr (hkeep hchar)))

/-- Trimming a second time changes nothing. -/
theorem trim_trim (text : List Char) : trim (trim text) = trim text := by
  have hstart : trimStart (trim text) = trim text := by
    rw [trim, trimEnd_eq_rdropWhile, trimStart]
    refine List.dropWhile_eq_self_iff.mpr fun hpositive => ?_
    have hfirst := (List.rdropWhile_prefix isBlank (trimStart text)).getElem hpositive
    have hnot := List.dropWhile_eq_self_iff.mp (List.dropWhile_idempotent isBlank text)
    rw [hfirst]
    exact hnot _
  rw [trim, hstart, trim, trimEnd_eq_rdropWhile, trimEnd_eq_rdropWhile,
    List.rdropWhile_idempotent]

theorem allBlank_eq_false_iff {text : List Char} :
    allBlank text = false ↔ ∃ char ∈ text, isBlank char = false := by
  rw [allBlank, List.all_eq_false]
  simp only [Bool.not_eq_true]

theorem cutFirst?_append {cut : Char} {before : List Char} (hbefore : cut ∉ before)
    (after : List Char) : cutFirst? cut (before ++ cut :: after) = some (before, after) := by
  induction before with
  | nil => exact if_pos rfl
  | cons char before ih =>
      rw [List.mem_cons, not_or] at hbefore
      rw [List.cons_append, cutFirst?, if_neg (Ne.symm hbefore.1), ih hbefore.2]
      rfl

theorem cutFirst?_eq_none_iff {cut : Char} {text : List Char} :
    cutFirst? cut text = none ↔ cut ∉ text := by
  induction text with
  | nil => simp [cutFirst?]
  | cons char rest ih =>
      rw [cutFirst?, List.mem_cons, not_or]
      split
      · rename_i hsame
        simp [hsame]
      · rename_i hother
        rw [Option.map_eq_none_iff, ih]
        exact ⟨fun hrest => ⟨Ne.symm hother, hrest⟩, And.right⟩

end Text

namespace Source

/-! ## Blanks, keywords and names -/

theorem skipBlanks_cons {char : Char} (hsolid : Text.isBlank char = false) (hslash : char ≠ '/')
    (rest : List Char) : skipBlanks (char :: rest) = char :: rest := by
  rw [skipBlanks]
  · simp [hsolid]
  · rintro _ rfl
    exact absurd rfl hslash
  · rintro _ rfl
    exact absurd rfl hslash

theorem skipBlanks_of_isBlank {char : Char} (hblank : Text.isBlank char = true)
    (rest : List Char) : skipBlanks (char :: rest) = skipBlanks rest := by
  rw [skipBlanks]
  · simp [hblank]
  · rintro _ rfl
    cases hblank
  · rintro _ rfl
    cases hblank

theorem skipBlanks_slash {char : Char} (hslash : char ≠ '/') (hstar : char ≠ '*')
    (rest : List Char) : skipBlanks ('/' :: char :: rest) = '/' :: char :: rest := by
  rw [skipBlanks]
  · rfl
  · rintro _ - ⟨⟩
    exact hslash rfl
  · rintro _ - ⟨⟩
    exact hstar rfl

theorem dropStart?_append (start rest : List Char) :
    dropStart? start (start ++ rest) = some rest := by
  induction start with
  | nil => rfl
  | cons char start ih => exact (if_pos rfl).trans ih

theorem keyword?_append (word : List Char) {char : Char}
    (hchar : Text.isWordCharacter char = false) (rest : List Char) :
    keyword? word (word ++ char :: rest) = some (char :: rest) := by
  rw [keyword?, dropStart?_append]
  exact if_neg (by simp [hchar])

theorem run_append {holds : Char → Bool} (reason : Option Char → Reason) {taken rest : List Char}
    (hne : taken ≠ []) (htaken : ∀ char ∈ taken, holds char = true)
    (hrest : ∀ char ∈ rest.head?, holds char = false) :
    run holds reason (taken ++ rest) = .ok (taken, rest) := by
  rw [run, takeWhile_append_eq_left htaken hrest, dropWhile_append_eq_right htaken hrest]
  split
  · contradiction
  · rfl

theorem character_cons (char : Char) (rest : List Char) :
    character char (char :: rest) = .ok rest :=
  if_pos rfl

theorem bracketedName_append {name : List Char} (hname : IsName name) (rest : List Char) :
    bracketedName ('<' :: (name ++ '>' :: rest)) = .ok (name, rest) := by
  have hrun : run isRuleNameCharacter .expectedRuleName (name ++ '>' :: rest) =
      .ok (name, '>' :: rest) := by
    refine run_append _ hname.1 hname.2 ?_
    rintro char ⟨⟩
    rfl
  rw [bracketedName, bind_of_eq_ok (character_cons '<' _), bind_of_eq_ok hrun]
  exact bind_of_eq_ok (character_cons '>' rest)

/-- A name between angle brackets is read back, whatever follows. -/
theorem bracketedName_printName {name : String} (hname : IsName name.toList)
    (rest : List Char) :
    bracketedName (Expansion.printName name ++ rest) = .ok (name.toList, rest) := by
  rw [Expansion.printName, List.append_assoc]
  exact bracketedName_append hname rest

/-- Words that are printed as they stand, or between quotes and without anything to escape. -/
def IsPrintableWord (text : List Char) : Prop :=
  (∀ char ∈ text, isBareCharacter char = true) ∨
    (∃ char ∈ text, Text.isBlank char = true) ∧ '"' ∉ text ∧ '\\' ∉ text

theorem isPrintableWord_iff {text : List Char} :
    IsPrintableWord text ↔
      text.all isBareCharacter = true ∨
        text.any Text.isBlank = true ∧ '"' ∉ text ∧ '\\' ∉ text := by
  rw [IsPrintableWord, List.all_eq_true, List.any_eq_true]

instance (text : List Char) : Decidable (IsPrintableWord text) :=
  decidable_of_iff _ isPrintableWord_iff.symm

theorem isBareCharacter_iff {char : Char} :
    isBareCharacter char = true ↔ char ∉ wordStops ∧ Text.isBlank char = false := by
  simp [isBareCharacter]

/-! ## Delimited texts and tags -/

theorem delimited?_append {close : Char} (hescape : close ≠ '\\') {inside : List Char}
    (hclose : close ∉ inside) (hbackslash : '\\' ∉ inside) (rest : List Char) :
    delimited? close (inside ++ close :: rest) = some (inside, rest) := by
  induction inside with
  | nil =>
      rw [List.nil_append, delimited?]
      · exact if_pos rfl
      · rintro rfl
        contradiction
      · rintro _ _ rfl
        contradiction
  | cons char inside ih =>
      rw [List.mem_cons, not_or] at hclose hbackslash
      rw [List.cons_append, delimited?, if_neg (Ne.symm hclose.1), ih hclose.2 hbackslash.2]
      · rfl
      · rintro rfl
        exact absurd rfl hbackslash.1
      · rintro _ _ rfl
        exact absurd rfl hbackslash.1

/-- A word between quotes is read back. -/
theorem quoted_append {word : List Char} (hsolid : Text.allBlank word = false)
    (hquote : '"' ∉ word) (hbackslash : '\\' ∉ word) (text rest : List Char) :
    quoted text (word ++ '"' :: rest) = .ok (word, rest) := by
  rw [quoted, delimited?_append (by decide) hquote hbackslash]
  exact if_neg (by simp [hsolid])

/-- The text of a tag that was read holds more than blanks, and reads as the tag. -/
theorem IsWrittenTag.ofText_text {tag : Tag} (htag : IsWrittenTag tag) :
    Text.allBlank tag.text.toList = false ∧ Tag.ofText tag.text = tag := by
  obtain ⟨inside, hsolid, rfl⟩ := htag
  rw [Tag.ofText, String.toList_ofList]
  cases hcut : Text.cutFirst? ':' inside with
  | some parts =>
      obtain ⟨label, value⟩ := parts
      obtain ⟨-, hlabel⟩ := Text.eq_append_of_cutFirst? hcut
      have htext : (Tag.text ⟨String.ofList (Text.trim label),
          some (String.ofList (Text.trim value))⟩).toList =
            Text.trim label ++ ':' :: Text.trim value := by
        simp [Tag.text]
      have hcolon : ':' ∉ Text.trim label := fun hmem => hlabel (Text.mem_of_mem_trim hmem)
      dsimp only
      refine ⟨?_, ?_⟩
      · rw [htext, Text.allBlank_eq_false_iff]
        exact ⟨':', by simp, rfl⟩
      · rw [Tag.ofText, htext, Text.cutFirst?_append hcolon]
        dsimp only
        rw [Text.trim_trim, Text.trim_trim]
  | none =>
      have hcolon : ':' ∉ Text.trim inside := fun hmem =>
        Text.cutFirst?_eq_none_iff.mp hcut (Text.mem_of_mem_trim hmem)
      have htext : (Tag.text ⟨Text.trimmed (String.ofList inside), none⟩).toList =
          Text.trim inside := by
        simp [Tag.text, Text.trimmed]
      dsimp only
      refine ⟨?_, ?_⟩
      · obtain ⟨char, hchar, hvisible⟩ := Text.allBlank_eq_false_iff.mp hsolid
        rw [htext, Text.allBlank_eq_false_iff]
        exact ⟨char, Text.mem_trim_of_not_isBlank hchar hvisible, hvisible⟩
      · rw [Tag.ofText, htext, Text.cutFirst?_eq_none_iff.mpr hcolon]
        simp [Tag.text, Text.trimmed, Text.trim_trim]

/-- A tag between braces is read back. -/
theorem tag_append {tag : Tag} (htag : IsWrittenTag tag) (hbrace : '}' ∉ tag.text.toList)
    (hbackslash : '\\' ∉ tag.text.toList) (text rest : List Char) :
    Source.tag text (tag.text.toList ++ '}' :: rest) = .ok (tag, rest) := by
  obtain ⟨hsolid, hread⟩ := htag.ofText_text
  rw [Source.tag, delimited?_append (by decide) hbrace hbackslash]
  dsimp only
  rw [if_neg (by simp [hsolid]), String.ofList_toList, hread]

end Source

end SpeechGrammar
