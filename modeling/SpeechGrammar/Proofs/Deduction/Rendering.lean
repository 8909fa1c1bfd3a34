import SpeechGrammar.Deduction.Basic
import SpeechGrammar.Proofs.ExactWeight
import SpeechGrammar.Proofs.Grammar.Prepared
import SpeechGrammar.Proofs.Json.RoundTrip
import SpeechGrammar.Proofs.ExactProbability

/-!
# Rendered tags can be assigned again

A derivation is rendered as one JSON object, with its tags as an array behind
its span and in front of its score.  That array, taken out of the text, is a
list of tags as they are assigned from outside: it is accepted, and gives the
tags of the derivation in their order, each for the whole of an utterance.  A
value that is missing stays apart from a value that is empty, and no character
in a label or a value makes a difference.
-/

namespace SpeechGrammar

namespace Derivation

theorem numberless_jsonOfTag (tag : Tag) (limit : Nat) :
    Json.Numberless (limit + 1) (jsonOfTag tag) := by
  obtain ⟨label, value?⟩ := tag
  apply Json.Numberless.object
  cases value? with
  | none => simpa using Json.Numberless.string label
  | some value => simpa using ⟨Json.Numberless.string label, Json.Numberless.string value⟩

theorem numberless_jsonOfTags (tags : List Tag) (limit : Nat) :
    Json.Numberless (limit + 2) (.array (tags.map jsonOfTag)) := by
  apply Json.Numberless.array
  rw [List.forall_mem_map]
  exact fun tag _ => numberless_jsonOfTag tag limit

theorem ofJson?_jsonOfTag (tag : Tag) : Assignment.ofJson? (jsonOfTag tag) = some ⟨tag, none⟩ := by
  obtain ⟨label, value?⟩ := tag
  cases value? with
  | none => rfl
  | some value => rfl

theorem listOfJson?_jsonOfTags (tags : List Tag) :
    Assignment.listOfJson? (.array (tags.map jsonOfTag)) =
      some (tags.map fun tag => ⟨tag, none⟩) := by
  rw [Assignment.listOfJson?]
  induction tags with
  | nil => rfl
  | cons tag tags ih =>
      rw [List.map_cons, List.mapM_cons, ofJson?_jsonOfTag, ih]
      rfl

def textOfTags (tags : List Tag) : String := (Json.array (tags.map jsonOfTag)).text

/-- The text of tags is accepted as a list of tags, and says the same tags. -/
theorem parseList_textOfTags (tags : List Tag) :
    Assignment.parseList (textOfTags tags) = .ok (tags.map fun tag => ⟨tag, none⟩) := by
  have hread := Json.readValue_write (numberless_jsonOfTags tags 125)
  rw [Assignment.parseList, textOfTags, Json.text, String.toList_ofList]
  dsimp only
  rw [hread]
  dsimp only [Except.mapError, bind, Except.bind]
  rw [listOfJson?_jsonOfTags]
  rfl

variable {W : Type} [LogWeight W]

def textBeforeTags (derivation : Derivation W) : String :=
  "\x7b\"span\":[" ++ (Json.ofNat derivation.span.1).text ++ "," ++
    (Json.ofNat derivation.span.2).text ++ "],\"tags\":"

def textAfterTags (derivation : Derivation W) : String :=
  ",\"score\":" ++ (jsonOfScore derivation.score).text ++ "\x7d"

/-- A derivation is rendered as its tags between what its span and its score are rendered as. -/
theorem text_toJson (derivation : Derivation W) :
    derivation.toJson.text =
      derivation.textBeforeTags ++ textOfTags derivation.tags.toList ++
        derivation.textAfterTags := by
  have hopen : "\x7b\"span\":[".toList = '\x7b' :: (Json.writeString "span" ++ [':', '[']) := by
    decide
  have htags : "],\"tags\":".toList = ']' :: ',' :: (Json.writeString "tags" ++ [':']) := by decide
  have hscore : ",\"score\":".toList = ',' :: (Json.writeString "score" ++ [':']) := by decide
  have hcomma : ",".toList = [','] := by decide
  have hclose : "\x7d".toList = ['\x7d'] := by decide
  apply String.toList_inj.mp
  rw [textBeforeTags, textAfterTags, textOfTags, toJson]
  simp only [Json.text, String.toList_append, String.toList_ofList, Json.write, Json.writeMembers,
    Json.writeItems, hopen, htags, hscore, hcomma, hclose, List.append_assoc, List.cons_append,
    List.nil_append, List.append_nil]

end Derivation

namespace Deduction

variable {W : Type} [LogWeight W]

/-- What is left of a deduction when so many derivations have been asked for. -/
def advance (deduction : Deduction W) : Nat → Deduction W
  | 0 => deduction
  | calls + 1 => (deduction.advance calls).next.2

theorem next_fst (deduction : Deduction W) :
    deduction.next.1 =
      deduction.derivations[deduction.rendered]?.map fun derivation => derivation.toJson.text := by
  rw [next]
  cases deduction.derivations[deduction.rendered]? with
  | none => rfl
  | some derivation => rfl

theorem derivations_next (deduction : Deduction W) :
    deduction.next.2.derivations = deduction.derivations := by
  rw [next]
  cases deduction.derivations[deduction.rendered]? with
  | none => rfl
  | some derivation => rfl

theorem rendered_next {deduction : Deduction W}
    (hleft : deduction.rendered < deduction.derivations.length) :
    deduction.next.2.rendered = deduction.rendered + 1 := by
  rw [next, List.getElem?_eq_getElem hleft]

theorem derivations_advance (deduction : Deduction W) (calls : Nat) :
    (deduction.advance calls).derivations = deduction.derivations := by
  induction calls with
  | zero => rfl
  | succ calls ih => rw [advance, derivations_next, ih]

theorem rendered_advance {deduction : Deduction W} {calls : Nat}
    (hleft : deduction.rendered + calls ≤ deduction.derivations.length) :
    (deduction.advance calls).rendered = deduction.rendered + calls := by
  induction calls with
  | zero => rfl
  | succ calls ih =>
      have hbefore := ih (Nat.le_of_succ_le hleft)
      have hturn : (deduction.advance calls).rendered <
          (deduction.advance calls).derivations.length := by
        rw [hbefore, derivations_advance]
        exact hleft
      rw [advance, rendered_next hturn, hbefore, Nat.add_assoc]

/--
Every derivation that is left has its turn, and the text of its tags, which stands in the text it
is rendered as behind its span and in front of its score, is accepted as a list of tags and gives
its tags in their order, each for the whole of an utterance.
-/
theorem tags_of_next {deduction : Deduction W} {calls : Nat} {derivation : Derivation W}
    (hderivation : deduction.derivations[deduction.rendered + calls]? = some derivation) :
    ∃ tags : String,
      (deduction.advance calls).next.1 =
        some (derivation.textBeforeTags ++ tags ++ derivation.textAfterTags) ∧
      Assignment.parseList tags = .ok (derivation.tags.toList.map fun tag => ⟨tag, none⟩) := by
  have hleft := (List.getElem?_eq_some_iff.mp hderivation).1
  refine ⟨_, ?_, Derivation.parseList_textOfTags derivation.tags.toList⟩
  rw [next_fst, derivations_advance, rendered_advance (Nat.le_of_lt hleft), hderivation,
    Option.map_some, Derivation.text_toJson]

end Deduction

namespace Scope

def salute : Scope ℚ := (parseLenient ⟨0⟩ "public <salute> = hello \x7bpolite:\x7d;" none).1

/-- Tags with empty parts, with escaped characters and with characters of several bytes. -/
def oddTags : List Tag :=
  [⟨"", none⟩, ⟨"", some ""⟩, ⟨"a \"b\" \\c\\", some "\n\t\x01\x7f"⟩, ⟨"ö", some "日本"⟩]

/-- The tags of `salute` with `oddTags` assigned, in their order. -/
def saluteTags : List Tag :=
  [⟨"", none⟩, ⟨"", some ""⟩, ⟨"a \"b\" \\c\\", some "\n\t\x01\x7f"⟩, ⟨"polite", some ""⟩,
    ⟨"ö", some "日本"⟩]

/--
The rendered derivation of `hello` has the text of its tags inside, and reading that text gives all
five tags.
-/
theorem salute_tags_of_next : ∃ (deduction : Deduction (WithBot ℚ))
    (derivation : Derivation (WithBot ℚ)) (tags : String),
    salute.deduceText "salute" "hello" (oddTags.map fun tag => ⟨tag, none⟩) = .ok deduction ∧
      deduction.derivations = [derivation] ∧
      deduction.next.1 = some (derivation.textBeforeTags ++ tags ++ derivation.textAfterTags) ∧
      Assignment.parseList tags = .ok (saluteTags.map fun tag => ⟨tag, none⟩) := by
  obtain ⟨deduction, hdeduce, hknown⟩ := exists_of_toOption_map_eq_some
    (by decide +kernel : ((salute.deduceText "salute" "hello"
        (oddTags.map fun tag => ⟨tag, none⟩) : Except _ (Deduction (WithBot ℚ))).map
          fun deduction =>
            (deduction.rendered, deduction.derivations.map (·.tags.toList))).toOption =
      some (0, [saluteTags]))
  obtain ⟨hrendered, hall⟩ := Prod.mk.inj hknown
  obtain ⟨derivation, hderivations, htags⟩ := List.map_eq_singleton_iff.mp hall
  have hfirst : deduction.derivations[deduction.rendered + 0]? = some derivation := by
    rw [hrendered, hderivations]
    rfl
  obtain ⟨tags, hnext, hparse⟩ := Deduction.tags_of_next hfirst
  rw [htags] at hparse
  exact ⟨deduction, derivation, tags, hdeduce, hderivations, hnext, hparse⟩

end Scope

end SpeechGrammar
