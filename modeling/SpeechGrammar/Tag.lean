import SpeechGrammar.SortedSet
import SpeechGrammar.Text.Blank

/-!
# Semantic tags

A tag is a label with an optional value.  A grammar writes it between braces
as `label` or `label:value`; an utterance matched against the grammar collects
the tags along the way as a set.
-/

namespace SpeechGrammar

/-- A label with an optional value. -/
structure Tag where
  label : String
  value? : Option String := none
  deriving DecidableEq, Repr, Inhabited

namespace Tag

instance : Ord Tag := ⟨compareLex (compareOn label) (compareOn value?)⟩

instance : Std.TransOrd Tag :=
  inferInstanceAs (Std.TransCmp (compareLex (compareOn label) (compareOn value?)))

instance : Std.LawfulEqOrd Tag where
  eq_of_compare {first second} h := by
    obtain ⟨labels, values⟩ := Ordering.then_eq_eq.1 h
    have sameLabel := Std.LawfulEqOrd.eq_of_compare (α := String) labels
    have sameValue := Std.LawfulEqOrd.eq_of_compare (α := Option String) values
    cases first
    cases second
    simp_all
  compare_self := Std.ReflCmp.compare_self

/-- Read the text between braces: the first colon ends the label. -/
def ofText (text : String) : Tag :=
  match Text.cutFirst? ':' text.toList with
  | some (label, value) =>
      ⟨String.ofList (Text.trim label), some (String.ofList (Text.trim value))⟩
  | none => ⟨Text.trimmed text, none⟩

/-- The text between braces. -/
def text (tag : Tag) : String :=
  match tag.value? with
  | some value => tag.label ++ ":" ++ value
  | none => tag.label

end Tag

/-- The tags collected along a path. -/
abbrev TagSet := SortedSet Tag

end SpeechGrammar
