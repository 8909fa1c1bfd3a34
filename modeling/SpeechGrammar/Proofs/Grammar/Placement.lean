import SpeechGrammar.Proofs.Grammar.Recovery
import SpeechGrammar.Proofs.Source.Rounds

/-!
# Errors are placed in the text

A failure is placed by how much of the text was left.  If that is counted in
bytes, the text has to be cut at that many bytes from its end, and what is in
front once more behind its last line feed.  Neither cut can hit the middle of
a character, and what comes of them is the line and the column of the first
character that was left, as they are counted in characters.
-/

namespace SpeechGrammar

namespace Source

/-- A text can be cut between its parts. -/
theorem cutAt?_append (before after : String) :
    cutAt? (before ++ after) before.utf8ByteSize = some (before, after) := by
  have hvalid : (⟨before.utf8ByteSize⟩ : String.Pos.Raw).IsValid (before ++ after) :=
    String.Pos.Raw.isValid_iff_exists_append.mpr ⟨before, after, rfl, rfl⟩
  rw [cutAt?, dif_pos hvalid]
  let place : (before ++ after).Pos := ⟨⟨before.utf8ByteSize⟩, hvalid⟩
  have hsplits : place.Splits before after := ⟨rfl, rfl⟩
  obtain ⟨hleft, hright⟩ := place.splits.eq hsplits
  exact congrArg some (Prod.ext hleft hright)

theorem cutAt?_lineFeed {text : String} {lines rest : List Char}
    (htext : text.toList = lines ++ '\n' :: rest) :
    cutAt? text ((String.ofList lines).utf8ByteSize + 1) =
      some (String.ofList (lines ++ ['\n']), String.ofList rest) := by
  have hlines : (String.ofList lines).utf8ByteSize + 1 =
      (String.ofList (lines ++ ['\n'])).utf8ByteSize := by
    rw [String.ofList_append, String.utf8ByteSize_append]
    rfl
  have hparts : text = String.ofList (lines ++ ['\n']) ++ String.ofList rest := by
    rw [← String.ofList_append, ← List.append_cons, ← htext, String.ofList_toList]
  rw [hlines, hparts]
  exact cutAt?_append ..

theorem Failure.IsWithin.exists_parts {failure : Failure} {text : String}
    (hwithin : failure.IsWithin text.toList) :
    ∃ before after : String, text = before ++ after ∧ failure.remaining = after.length := by
  obtain ⟨before, after, htext, hremaining⟩ := hwithin
  refine ⟨String.ofList before, String.ofList after, ?_, ?_⟩
  · rw [← String.ofList_append, ← htext, String.ofList_toList]
  · rw [hremaining, String.length_ofList]

def IsLines (lines : List Char) : Prop := lines = [] ∨ ∃ earlier, lines = earlier ++ ['\n']

/-- An error is placed at the first character behind a text, counted from one in characters. -/
structure SyntaxError.IsBehind (error : SyntaxError) (before : List Char) : Prop where
  line : error.line = before.count '\n' + 1
  column : ∃ lines last, before = lines ++ last ∧ IsLines lines ∧ '\n' ∉ last ∧
    error.column = last.length + 1

theorem columnAfter_of_isLines {lines last : List Char} (hlines : IsLines lines)
    (hlast : '\n' ∉ last) : columnAfter (lines ++ last) = last.length + 1 := by
  have hfirst : columnAfter lines = 1 := by
    rcases hlines with rfl | ⟨earlier, rfl⟩
    · rfl
    · simp [columnAfter]
  rw [columnAfter_append lines last hlast, hfirst, Nat.add_comm]

theorem exists_isLines (before : List Char) :
    ∃ lines last, before = lines ++ last ∧ IsLines lines ∧ '\n' ∉ last := by
  cases hcut : Text.cutLast? '\n' before with
  | none => exact ⟨[], before, rfl, .inl rfl, Text.cutLast?_eq_none_iff.mp hcut⟩
  | some parts =>
      obtain ⟨rfl, hlast⟩ := Text.cutLast?_eq_some_iff.mp hcut
      exact ⟨_, parts.2, List.append_cons .., .inr ⟨parts.1, rfl⟩, hlast⟩

/-- A failure that leaves a back part of a text is placed at its first character. -/
theorem locate_isBehind (before after : List Char) (reason : Reason) :
    (Failure.locate (before ++ after) ⟨after.length, reason⟩).IsBehind before := by
  obtain ⟨lines, last, rfl, hlines, hlast⟩ := exists_isLines before
  rw [locate_failure]
  exact ⟨rfl, lines, last, rfl, hlines, hlast, columnAfter_of_isLines hlines hlast⟩

/-- Cutting a text at bytes places a failure where it is placed by the characters left. -/
theorem locateInBytes?_append (before after : String) (reason : Reason) :
    locateInBytes? (before ++ after) after.utf8ByteSize reason =
      some (Failure.locate (before ++ after).toList ⟨after.length, reason⟩) := by
  have hsize : (before ++ after).utf8ByteSize - after.utf8ByteSize = before.utf8ByteSize := by
    rw [String.utf8ByteSize_append, Nat.add_sub_cancel]
  rw [locateInBytes?, hsize, cutAt?_append, String.toList_append, ← String.length_toList,
    locate_failure]
  cases hcut : Text.cutLast? '\n' before.toList with
  | none =>
      have hline := Text.cutLast?_eq_none_iff.mp hcut
      have hcolumn : columnAfter before.toList = before.toList.length + 1 :=
        columnAfter_of_isLines (.inl rfl) hline
      rw [hcolumn, String.length_toList]
      simp [hcut, lineAfter]
  | some parts =>
      obtain ⟨lines, last⟩ := parts
      obtain ⟨hbefore, hline⟩ := Text.cutLast?_eq_some_iff.mp hcut
      have hcolumn : columnAfter before.toList = last.length + 1 := by
        rw [hbefore, List.append_cons]
        exact columnAfter_of_isLines (.inr ⟨lines, rfl⟩) hline
      rw [hcolumn, ← String.length_ofList (l := last)]
      simp [hcut, cutAt?_lineFeed hbefore, lineAfter]

end Source

namespace Scope

open Source (Event Failure RuleRounds ReadersAdvance SyntaxError locateInBytes?)

variable {P : Type} [BranchWeight P]

/-- Whatever is reported of a text, strictly or leniently, comes of a failure in its reading. -/
theorem exists_failure_of_reported {id : GrammarId} {text : String} {parent? : Option (Scope P)}
    {error : SyntaxError}
    (hreported : error ∈ (parseLenient id text parent?).2 ∨ parse id text parent? = .error error) :
    ∃ failure : Failure, failure.IsReal text.toList ∧ error = failure.locate text.toList := by
  have hmem : error ∈ (parseLenient id text parent?).2 := by
    refine hreported.elim (fun hmem => hmem) fun hparse => ?_
    rw [parse] at hparse
    split at hparse
    · cases hparse
    · rename_i scope first others hread
      obtain rfl := Except.error.inj hparse
      rw [hread]
      exact List.mem_cons_self
  rw [(parseLenient_eq_events id text parent?).2] at hmem
  obtain ⟨failure, hfailure, rfl⟩ := List.mem_map.mp hmem
  obtain ⟨event, hevent, hfailure⟩ := List.mem_filterMap.mp hfailure
  obtain rfl := Event.failure?_eq_some_iff.mp hfailure
  exact ⟨failure, Source.isReal_of_mem_events hevent, rfl⟩

variable (P)

/--
Every text is read to its end.  Each reader takes a front part off the text or fails with a back
part of it left, and rules are read in rounds that all take something off.  Every error that is
reported, strictly or leniently, is placed at the first character of a back part of the text, and
nothing is cut in the middle of a character if its place is found by counting bytes.
-/
theorem read_to_end_and_errors_isBehind :
    (∀ text : List Char, ReadersAdvance P text) ∧
    (∀ (text : List Char) (read : Source.Document P), Source.document text = .ok read →
      ∃ rest, Source.header text = .ok (read.header, rest) ∧ RuleRounds P rest read.statements ∧
        read.statements.length ≤ rest.length) ∧
    ∀ (id : GrammarId) (text : String) (parent? : Option (Scope P)) (error : SyntaxError),
      error ∈ (parseLenient id text parent?).2 ∨ parse id text parent? = .error error →
        error.reason ≠ .nestedTooDeep ∧
        ∃ before after : String, text = before ++ after ∧
          error = Failure.locate text.toList ⟨after.length, error.reason⟩ ∧
          error.IsBehind before.toList ∧
          locateInBytes? text after.utf8ByteSize error.reason = some error := by
  refine ⟨Source.readersAdvance P, fun text read hread => ?_,
    fun id text parent? error hreported => ?_⟩
  · obtain ⟨rest, hheader, hrounds⟩ := Source.rounds_of_document hread
    exact ⟨rest, hheader, hrounds, hrounds.length_le⟩
  · obtain ⟨⟨remaining, reason⟩, hreal, rfl⟩ := exists_failure_of_reported hreported
    obtain ⟨before, after, rfl, hremaining⟩ := hreal.isWithin.exists_parts
    obtain rfl : remaining = after.length := hremaining
    refine ⟨hreal.reason_ne, before, after, rfl, rfl, ?_, ?_⟩
    · rw [String.toList_append, ← String.length_toList]
      exact Source.locate_isBehind before.toList after.toList reason
    · exact Source.locateInBytes?_append before after reason

def accentedText : String := "public <café> = crème );\n<NULL> = thé; public <thé> = \"à la"

/--
Reading `accentedText` reports three errors, and cutting at bytes places the last one at line 2,
column 30, as counting characters does.
-/
theorem accented_errors_isBehind :
    (parseLenient (P := ℚ) ⟨0⟩ accentedText none).2 =
        [⟨1, 23, .strayParenthesis⟩, ⟨2, 7, .reservedName "NULL"⟩,
          ⟨2, 30, .unterminatedString⟩] ∧
      ∃ before after : String, accentedText = before ++ after ∧
        (⟨2, 30, .unterminatedString⟩ : SyntaxError) =
          Failure.locate accentedText.toList ⟨after.length, .unterminatedString⟩ ∧
        (⟨2, 30, .unterminatedString⟩ : SyntaxError).IsBehind before.toList ∧
        locateInBytes? accentedText after.utf8ByteSize .unterminatedString =
          some ⟨2, 30, .unterminatedString⟩ := by
  have herrors : (parseLenient (P := ℚ) ⟨0⟩ accentedText none).2 =
      [⟨1, 23, .strayParenthesis⟩, ⟨2, 7, .reservedName "NULL"⟩,
        ⟨2, 30, .unterminatedString⟩] := by
    decide +kernel
  obtain ⟨-, -, hplaced⟩ := read_to_end_and_errors_isBehind ℚ
  obtain ⟨-, hplace⟩ := hplaced ⟨0⟩ accentedText none ⟨2, 30, .unterminatedString⟩
    (.inl (herrors ▸ by simp))
  exact ⟨herrors, hplace⟩

end Scope

end SpeechGrammar
