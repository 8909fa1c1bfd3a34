import SpeechGrammar.Proofs.Derivation.Tree
import SpeechGrammar.Deduction.Basic

/-!
# Trees that fit tokens

A tree fits the tokens from some place on if its words match them one by one,
no rule comes up again below itself at the same token, and every iteration
that there need not be consumes a token.  What fits can be read off from left
to right, so fitting is a matter of the parts of a tree.
-/

namespace SpeechGrammar

variable {P W : Type}

namespace Tree

mutual

/--
Whether no rule comes up again below itself at the same token, where a tree
starts at a token and some rules are open already.
-/
def Guarded (opened : List (Target × Nat)) (start : Nat) : Tree P → Prop
  | .word _ => True
  | .rule target body => (target, start) ∉ opened ∧ body.Guarded ((target, start) :: opened) start
  | .sequence items => GuardedItems opened start items
  | .branch _ body => body.Guarded opened start
  | .iterations _ items => GuardedItems opened start items
  | .tagged body _ => body.Guarded opened start

def GuardedItems (opened : List (Target × Nat)) (start : Nat) : List (Tree P) → Prop
  | [] => True
  | item :: items => item.Guarded opened start ∧ GuardedItems opened (start + item.width) items

end

mutual

/-- Whether every iteration beyond the least number of iterations has a word. -/
def Productive : Tree P → Prop
  | .word _ => True
  | .rule _ body => body.Productive
  | .sequence items => ProductiveItems items
  | .branch _ body => body.Productive
  | .iterations least items => (∀ item ∈ items.drop least, 0 < item.width) ∧ ProductiveItems items
  | .tagged body _ => body.Productive

def ProductiveItems : List (Tree P) → Prop
  | [] => True
  | item :: items => item.Productive ∧ ProductiveItems items

end

/-- Whether a tree fits the tokens from some place on, where some rules are open. -/
structure Fits (query : Query) (opened : List (Target × Nat)) (start : Nat) (tree : Tree P) :
    Prop where
  spells : query.wordsMatch tree.words (query.tokens.drop start) = true
  guarded : tree.Guarded opened start
  productive : tree.Productive

end Tree

namespace Query

variable {query : Query}

theorem length_le_of_wordsMatch {words tokens : List String}
    (hmatch : query.wordsMatch words tokens = true) : words.length ≤ tokens.length := by
  induction words generalizing tokens with
  | nil => exact Nat.zero_le _
  | cons word words ih =>
      cases tokens with
      | nil => cases hmatch
      | cons token tokens =>
          rw [wordsMatch, Bool.and_eq_true] at hmatch
          exact Nat.succ_le_succ (ih hmatch.2)

theorem wordsMatch_append_iff {first second tokens : List String} :
    query.wordsMatch (first ++ second) tokens = true ↔
      query.wordsMatch first tokens = true ∧
        query.wordsMatch second (tokens.drop first.length) = true := by
  induction first generalizing tokens with
  | nil => simp [wordsMatch]
  | cons word first ih =>
      cases tokens with
      | nil => simp [wordsMatch]
      | cons token tokens => simp [wordsMatch, ih, and_assoc]

/-- Compared letter by letter, words match the tokens that start with them. -/
theorem wordsMatch_iff_prefix (hcase : query.policy.caseSensitive = true)
    (hvocabulary : query.policy.checkVocabulary = false) {words tokens : List String} :
    query.wordsMatch words tokens = true ↔ words <+: tokens := by
  induction words generalizing tokens with
  | nil => simp [wordsMatch]
  | cons word words ih =>
      cases tokens with
      | nil => simp [wordsMatch]
      | cons token tokens =>
          rw [wordsMatch, Bool.and_eq_true, ih, List.cons_prefix_cons]
          simp [wordMatches, admits, hcase, hvocabulary]

end Query

namespace Tree

variable {query : Query} {opened : List (Target × Nat)} {start : Nat}

theorem Fits.add_width_le {tree : Tree P} (hfits : tree.Fits query opened start)
    (hstart : start ≤ query.tokens.length) : start + tree.width ≤ query.tokens.length := by
  have hlength := Query.length_le_of_wordsMatch hfits.spells
  rw [List.length_drop] at hlength
  have hwidth : tree.width = tree.words.length := rfl
  omega

theorem fits_word_iff {text : String} :
    (word text : Tree P).Fits query opened start ↔
      query.wordsMatch (Text.wordsOf text) (query.tokens.drop start) = true := by
  rw [← words_word (P := P)]
  constructor
  · intro hfits
    exact hfits.spells
  · intro hmatch
    exact ⟨hmatch, trivial, trivial⟩

theorem fits_rule_iff {target : Target} {body : Tree P} :
    (rule target body).Fits query opened start ↔
      (target, start) ∉ opened ∧ body.Fits query ((target, start) :: opened) start := by
  constructor
  · rintro ⟨hspells, ⟨hnew, hguarded⟩, hproductive⟩
    exact ⟨hnew, hspells, hguarded, hproductive⟩
  · rintro ⟨hnew, hspells, hguarded, hproductive⟩
    exact ⟨hspells, ⟨hnew, hguarded⟩, hproductive⟩

theorem fits_branch_iff {probability : P} {body : Tree P} :
    (branch probability body).Fits query opened start ↔ body.Fits query opened start := by
  constructor
  · rintro ⟨hspells, hguarded, hproductive⟩
    exact ⟨hspells, hguarded, hproductive⟩
  · rintro ⟨hspells, hguarded, hproductive⟩
    exact ⟨hspells, hguarded, hproductive⟩

theorem fits_tagged_iff {body : Tree P} {tags : List Tag} :
    (tagged body tags).Fits query opened start ↔ body.Fits query opened start := by
  constructor
  · rintro ⟨hspells, hguarded, hproductive⟩
    exact ⟨hspells, hguarded, hproductive⟩
  · rintro ⟨hspells, hguarded, hproductive⟩
    exact ⟨hspells, hguarded, hproductive⟩

theorem fits_nil : (sequence [] : Tree P).Fits query opened start :=
  ⟨rfl, trivial, trivial⟩

/-- Trees one behind another fit if the first does, and the rest do behind it. -/
theorem fits_cons_iff {item : Tree P} {items : List (Tree P)} :
    (sequence (item :: items)).Fits query opened start ↔
      item.Fits query opened start ∧
        (sequence items).Fits query opened (start + item.width) := by
  have hspells : query.wordsMatch (sequence (item :: items)).words (query.tokens.drop start) ↔
      query.wordsMatch item.words (query.tokens.drop start) = true ∧
        query.wordsMatch (sequence items).words (query.tokens.drop (start + item.width)) =
          true := by
    rw [words_cons, Query.wordsMatch_append_iff, List.drop_drop]
    rfl
  constructor
  · rintro ⟨hwords, ⟨hguarded, hguardedItems⟩, hproductive, hproductiveItems⟩
    obtain ⟨hitem, hitems⟩ := hspells.mp hwords
    exact ⟨⟨hitem, hguarded, hproductive⟩, hitems, hguardedItems, hproductiveItems⟩
  · rintro ⟨⟨hitem, hguarded, hproductive⟩, hitems, hguardedItems, hproductiveItems⟩
    exact ⟨hspells.mpr ⟨hitem, hitems⟩, ⟨hguarded, hguardedItems⟩, hproductive, hproductiveItems⟩

/-- Iterations fit if they do one behind another and none beyond the least number is empty. -/
theorem fits_iterations_iff {least : Nat} {items : List (Tree P)} :
    (iterations least items).Fits query opened start ↔
      (∀ item ∈ items.drop least, 0 < item.width) ∧
        (sequence items).Fits query opened start := by
  constructor
  · rintro ⟨hspells, hguarded, hwide, hproductive⟩
    exact ⟨hwide, hspells, hguarded, hproductive⟩
  · rintro ⟨hwide, hspells, hguarded, hproductive⟩
    exact ⟨hspells, hguarded, hwide, hproductive⟩

end Tree

end SpeechGrammar
