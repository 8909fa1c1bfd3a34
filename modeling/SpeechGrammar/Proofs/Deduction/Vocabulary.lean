import SpeechGrammar.Proofs.Deduction.Firsts
import SpeechGrammar.Proofs.Expansion.Everywhere
import SpeechGrammar.Proofs.Grammar.Prepared
import SpeechGrammar.Proofs.ExactProbability

/-!
# Checking the vocabulary

Tokens are looked up in the vocabulary one at a time, whenever a word is
compared with them, so an unknown one cuts off some matches in the middle of a
search.  In the end this comes to a test of the utterance as a whole.  Where
every token is known the search is the one without a check; where one is not,
no match ever gets past it, and so none is complete.
-/

namespace SpeechGrammar

variable {P W : Type}

/-- Queries for the same tokens, in front of which the same words match everywhere. -/
structure Query.Alike (query other : Query) : Prop where
  tokens_eq : other.tokens = query.tokens
  wordsMatch_eq (words : List String) (start : Nat) :
    other.wordsMatch words (other.tokens.drop start) =
      query.wordsMatch words (query.tokens.drop start)

/-- Where all tokens are admitted by either of two policies, these are told apart by case only. -/
theorem Query.alike_of_admits {tokens : List String} {vocabulary : SortedSet String}
    {policy other : MatchPolicy} (hcase : other.caseSensitive = policy.caseSensitive)
    (hadmits : ∀ token ∈ tokens, (⟨tokens, policy, vocabulary⟩ : Query).admits token = true)
    (hothers : ∀ token ∈ tokens, (⟨tokens, other, vocabulary⟩ : Query).admits token = true) :
    Alike ⟨tokens, policy, vocabulary⟩ ⟨tokens, other, vocabulary⟩ := by
  have hmatch : ∀ words (left : List String), (∀ token ∈ left, token ∈ tokens) →
      (⟨tokens, other, vocabulary⟩ : Query).wordsMatch words left =
        (⟨tokens, policy, vocabulary⟩ : Query).wordsMatch words left := by
    intro words
    induction words with
    | nil => exact fun _ _ => rfl
    | cons word words ih =>
        intro left hleft
        cases left with
        | nil => rfl
        | cons token left =>
            obtain ⟨htoken, hleft⟩ := List.forall_mem_cons.mp hleft
            rw [wordsMatch, wordsMatch, ih left hleft, wordMatches, wordMatches, hcase,
              hadmits token htoken, hothers token htoken]
  exact ⟨rfl, fun words start => hmatch words _ fun _ => List.mem_of_mem_drop⟩

section Alike

variable [BranchWeight P] [LogWeight W] [Logarithm P W] {query other : Query}

/-- Queries that come to the same carry matches on alike, if references do. -/
theorem Query.Alike.extend_eq (halike : query.Alike other)
    {follow : Reference → Partial W → List (Partial W)} (expansion : Expansion P)
    (found : Partial W) :
    expansion.extend other follow found = expansion.extend query follow found := by
  have hrepeated : ∀ (step : Partial W → List (Partial W)) (least : Nat) (most? : Option Nat),
      Partial.repeated other step least most? = Partial.repeated query step least most? := by
    intro step least most?
    funext found
    rw [Partial.repeated, Partial.repeated, halike.tokens_eq]
  induction expansion using Expansion.structural generalizing found with
  | literal text =>
      rw [Expansion.extend, Expansion.extend, halike.wordsMatch_eq]
  | reference link => rfl
  | sequence items ih =>
      have hitems : ∀ partials : List (Partial W),
          Expansion.extendItems other follow items partials =
            Expansion.extendItems query follow items partials := by
        induction items with
        | nil => exact fun _ => rfl
        | cons item items ihItems =>
            intro partials
            obtain ⟨ihItem, ihRest⟩ := List.forall_mem_cons.mp ih
            rw [Expansion.extendItems, Expansion.extendItems, ihItems ihRest, funext ihItem]
      exact hitems [found]
  | alternation branches ih =>
      have hbranches : Expansion.extendBranches other follow branches found =
          Expansion.extendBranches query follow branches found := by
        induction branches with
        | nil => rfl
        | cons branch branches ihBranches =>
            obtain ⟨ihBranch, ihRest⟩ := List.forall_mem_cons.mp ih
            rw [Expansion.extendBranches, Expansion.extendBranches, ihBranches ihRest, ihBranch]
      exact congrArg Partial.firsts hbranches
  | repetition body least most? ih =>
      rw [Expansion.extend, Expansion.extend, hrepeated, funext ih]
  | optional body ih => rw [Expansion.extend, Expansion.extend, hrepeated, funext ih]
  | tagged body tags ih => exact ih _

/-- Queries that come to the same carry matches on alike over references. -/
theorem Query.Alike.followReference_eq (halike : query.Alike other) (scope : Scope P) (room : Nat)
    (active : List (Target × Nat)) :
    scope.followReference (W := W) other room active =
      scope.followReference query room active := by
  induction room using Nat.strongRecOn generalizing active with
  | ind room ih =>
      funext link found
      unfold Scope.followReference
      cases link.target? with
      | none => rfl
      | some target =>
          dsimp only
          split
          · rfl
          · cases scope.follow? target with
            | none => rfl
            | some rule =>
                cases room with
                | zero => rfl
                | succ room =>
                    dsimp only
                    rw [ih room (Nat.lt_succ_self room), halike.extend_eq]

end Alike

/-! ## A token that no match gets past -/

/-- From matches that stand at a place at the latest a step leads to such matches only. -/
def Partial.StaysBefore (limit : Nat) (step : Partial W → List (Partial W)) : Prop :=
  ∀ found, found.consumed ≤ limit → ∀ later ∈ step found, later.consumed ≤ limit

namespace Partial.StaysBefore

variable {limit : Nat} {step : Partial W → List (Partial W)}

theorem flatMap (hstep : StaysBefore limit step) {partials : List (Partial W)}
    (hpartials : ∀ found ∈ partials, found.consumed ≤ limit) :
    ∀ later ∈ partials.flatMap step, later.consumed ≤ limit := by
  intro later hlater
  obtain ⟨found, hfound, hlater⟩ := List.mem_flatMap.mp hlater
  exact hstep found (hpartials found hfound) later hlater

theorem filter (hstep : StaysBefore limit step) (test : Partial W → Partial W → Bool) :
    StaysBefore limit fun found => (step found).filter (test found) :=
  fun found hfound later hlater => hstep found hfound later (List.mem_filter.mp hlater).1

theorem iterations (hstep : StaysBefore limit step) (least : Nat) (most? : Option Nat)
    (allowance count : Nat) {current : List (Partial W)}
    (hcurrent : ∀ found ∈ current, found.consumed ≤ limit) :
    ∀ later ∈ Partial.iterations step least most? allowance count current,
      later.consumed ≤ limit := by
  have hhere : ∀ count (current : List (Partial W)),
      (∀ found ∈ current, found.consumed ≤ limit) →
      ∀ later ∈ (if least ≤ count then current else []), later.consumed ≤ limit := by
    intro count current hcurrent later hlater
    split at hlater
    · exact hcurrent later hlater
    · cases hlater
  induction allowance generalizing count current with
  | zero => exact hhere count current hcurrent
  | succ allowance ih =>
      rw [Partial.iterations]
      dsimp only
      split
      · exact hhere count current hcurrent
      · split
        · exact hhere count current hcurrent
        · refine List.forall_mem_append.mpr
            ⟨ih _ fun found hfound => ?_, hhere count current hcurrent⟩
          refine (hstep.filter fun found later =>
            count < least || found.consumed < later.consumed).flatMap hcurrent found ?_
          exact Partial.mem_of_mem_firsts hfound

theorem repeated (hstep : StaysBefore limit step) (query : Query) (least : Nat)
    (most? : Option Nat) : StaysBefore limit (Partial.repeated query step least most?) := by
  intro found hfound later hlater
  exact hstep.iterations least most? _ 0 (List.forall_mem_singleton.mpr hfound) later
    (Partial.mem_of_mem_firsts hlater)

end Partial.StaysBefore

open Partial (StaysBefore)

theorem Query.admits_of_wordsMatch {query : Query} {words tokens : List String}
    (hmatch : query.wordsMatch words tokens = true) {index : Nat} (hindex : index < words.length)
    {token : String} (htoken : tokens[index]? = some token) : query.admits token = true := by
  induction words generalizing tokens index with
  | nil => cases hindex
  | cons word words ih =>
      cases tokens with
      | nil => cases hmatch
      | cons first tokens =>
          rw [wordsMatch, wordMatches, Bool.and_eq_true, Bool.and_eq_true] at hmatch
          cases index with
          | zero =>
              obtain rfl := Option.some.inj htoken
              exact hmatch.1.2
          | succ index => exact ih hmatch.2 (Nat.lt_of_succ_lt_succ hindex) htoken

section Unknown

variable [BranchWeight P] [LogWeight W] [Logarithm P W] {query : Query} {limit : Nat}
  {token : String}

/-- No expansion carries a match past a token that is not admitted, if no reference does. -/
theorem staysBefore_extend (htoken : query.tokens[limit]? = some token)
    (hrefused : query.admits token = false) {follow : Reference → Partial W → List (Partial W)}
    (hfollow : ∀ link, StaysBefore limit (follow link)) (expansion : Expansion P) :
    StaysBefore limit (expansion.extend query follow) := by
  induction expansion using Expansion.structural with
  | literal text =>
      intro found hfound later hlater
      rw [Expansion.extend] at hlater
      split at hlater
      · rename_i hmatch
        rw [List.mem_singleton.mp hlater]
        dsimp only
        by_contra hpast
        have hindex : limit - found.consumed < (Text.wordsOf text).length := by omega
        have hthere : (query.tokens.drop found.consumed)[limit - found.consumed]? = some token := by
          rw [List.getElem?_drop, Nat.add_sub_cancel' hfound, htoken]
        cases hrefused.symm.trans (Query.admits_of_wordsMatch hmatch hindex hthere)
      · cases hlater
  | reference link => exact hfollow link
  | sequence items ih =>
      have hitems : ∀ partials : List (Partial W), (∀ found ∈ partials, found.consumed ≤ limit) →
          ∀ later ∈ Expansion.extendItems query follow items partials, later.consumed ≤ limit := by
        induction items with
        | nil => exact fun partials hpartials => hpartials
        | cons item items ihItems =>
            intro partials hpartials
            obtain ⟨ihItem, ihRest⟩ := List.forall_mem_cons.mp ih
            refine ihItems ihRest _ fun found hfound => ?_
            exact ihItem.flatMap hpartials found (Partial.mem_of_mem_firsts hfound)
      exact fun found hfound => hitems [found] (List.forall_mem_singleton.mpr hfound)
  | alternation branches ih =>
      have hbranches : StaysBefore limit (Expansion.extendBranches query follow branches) := by
        induction branches with
        | nil =>
            intro found _ later hlater
            cases hlater
        | cons branch branches ihBranches =>
            obtain ⟨ihBranch, ihRest⟩ := List.forall_mem_cons.mp ih
            intro found hfound later hlater
            rw [Expansion.extendBranches] at hlater
            rcases List.mem_append.mp hlater with hlater | hlater
            · split at hlater
              · exact ihBranch { found with score := found.score + Logarithm.ln branch.probability }
                  hfound later hlater
              · cases hlater
            · exact ihBranches ihRest found hfound later hlater
      exact fun found hfound later hlater =>
        hbranches found hfound later (Partial.mem_of_mem_firsts hlater)
  | repetition body least most? ih => exact ih.repeated query least most?
  | optional body ih => exact ih.repeated query 0 (some 1)
  | tagged body tags ih => exact fun found hfound => ih _ hfound

theorem Scope.staysBefore_followReference (htoken : query.tokens[limit]? = some token)
    (hrefused : query.admits token = false) (scope : Scope P) (room : Nat)
    (active : List (Target × Nat)) (link : Reference) :
    StaysBefore (W := W) limit (scope.followReference query room active link) := by
  induction room using Nat.strongRecOn generalizing active link with
  | ind room ih =>
      intro found hfound later hlater
      unfold followReference at hlater
      split at hlater
      · cases hlater
      · split at hlater
        · cases hlater
        · split at hlater
          · cases hlater
          · cases hlater
          · exact staysBefore_extend htoken hrefused
              (fun inner => ih _ (Nat.lt_succ_self _) _ inner) _ found hfound later hlater

omit [LogWeight W] in
theorem Scope.complete_eq_nil {count : Nat} {assignments : List Assignment}
    {partials : List (Partial W)} (hpartials : ∀ found ∈ partials, found.consumed < count) :
    complete count assignments partials = [] := by
  rw [complete, List.map_eq_nil_iff, List.filter_eq_nil_iff]
  intro found hfound
  rw [beq_iff_eq]
  exact (hpartials found hfound).ne

end Unknown

/-! ## Deductions -/

namespace Scope

variable [BranchWeight P] [LogWeight W] [Logarithm P W] (scope : Scope P)

/--
Checking the vocabulary is a test of the utterance.  If all tokens are known, in lower case, the
outcome is the one without a check; otherwise there are no derivations, unless there is a refusal,
which is the same in any case.
-/
theorem deduce_checkVocabulary (hvocabulary : scope.grammar.vocabulary ≠ .empty) (rule : String)
    (tokens : List String) (assignments : List Assignment) (caseSensitive : Bool) :
    (scope.deduce rule tokens assignments ⟨caseSensitive, true⟩ :
        Except (Refusal P) (Deduction W)) =
      (scope.deduce rule tokens assignments ⟨caseSensitive, false⟩).map fun deduction =>
        if ∀ token ∈ tokens, Text.lowerCase token ∈ scope.grammar.vocabulary then deduction
        else { derivations := [] } := by
  have hempty : scope.grammar.vocabulary.isEmpty = false := by
    refine Bool.eq_false_iff.mpr fun hempty => hvocabulary ?_
    exact SortedSet.ext fun word => by
      rw [← SortedSet.mem_toList, List.isEmpty_iff.mp hempty]
      exact iff_of_false List.not_mem_nil (SortedSet.not_mem_empty word)
  have hadmits : ∀ token, (⟨tokens, ⟨caseSensitive, true⟩, scope.grammar.vocabulary⟩ :
      Query).admits token = decide (Text.lowerCase token ∈ scope.grammar.vocabulary) := by
    intro token
    rw [Query.admits, hempty]
    exact List.contains_eq_mem _ _
  rw [deduce, deduce]
  cases scope.grammar.public rule with
  | error refusal => rfl
  | ok found =>
      obtain ⟨target, top⟩ := found
      dsimp only [bind, Except.bind, Except.map]
      cases scope.unusableBelow? target with
      | some reason => rfl
      | none =>
          dsimp only [pure, Except.pure]
          split
          · rename_i hknown
            have halike : Query.Alike ⟨tokens, ⟨caseSensitive, false⟩, scope.grammar.vocabulary⟩
                ⟨tokens, ⟨caseSensitive, true⟩, scope.grammar.vocabulary⟩ :=
              Query.alike_of_admits rfl (fun _ _ => rfl) fun token htoken =>
                (hadmits token).trans (decide_eq_true (hknown token htoken))
            rw [halike.followReference_eq, halike.extend_eq]
          · rename_i hunknown
            obtain ⟨token, htoken, hmissing⟩ : ∃ token ∈ tokens,
                Text.lowerCase token ∉ scope.grammar.vocabulary := by simpa using hunknown
            obtain ⟨limit, hlimit, rfl⟩ := List.mem_iff_getElem.mp htoken
            have hplace := List.getElem?_eq_getElem hlimit
            have hrefused := (hadmits tokens[limit]).trans (decide_eq_false hmissing)
            have hstays := staysBefore_extend (W := W) hplace hrefused
              (scope.staysBefore_followReference hplace hrefused
                (scope.ruleCount * (tokens.length + 1)) [(target, 0)]) top.body
            rw [complete_eq_nil fun found hfound =>
              (hstays .start (Nat.zero_le _) found hfound).trans_lt hlimit]
            rfl

/-- A grammar with the vocabulary `call`, `john` and `the`. -/
def knowing : Scope ℚ :=
  let scope : Scope ℚ :=
    (parseLenient ⟨0⟩ "public <cmd> = [please] call <name>; <name> = john | \"the boss\";" none).1
  { scope with grammar := ((scope.grammar.addWord "call").addWord "John").addWord "the" }

/--
With the vocabulary checked, `CALL john` keeps its derivation and `call the boss` loses it, as
`boss` is not in the vocabulary.
-/
theorem knowing_checked :
    knowing.grammar.vocabulary ≠ .empty ∧
      (∃ deduction : Deduction (WithBot ℚ),
        knowing.deduce "cmd" ["CALL", "john"] [] ⟨false, true⟩ = .ok deduction ∧
          deduction.derivations.length = 1) ∧
      ∃ deduction : Deduction (WithBot ℚ),
        knowing.deduce "cmd" ["call", "the", "boss"] [] ⟨false, false⟩ = .ok deduction ∧
          deduction.derivations.length = 1 ∧
          knowing.deduce "cmd" ["call", "the", "boss"] [] ⟨false, true⟩ =
            .ok ({ derivations := [] } : Deduction (WithBot ℚ)) := by
  obtain ⟨hvocabulary, hknown, hunknown⟩ : knowing.grammar.vocabulary ≠ .empty ∧
      (∀ token ∈ ["CALL", "john"], Text.lowerCase token ∈ knowing.grammar.vocabulary) ∧
      ¬ ∀ token ∈ ["call", "the", "boss"],
        Text.lowerCase token ∈ knowing.grammar.vocabulary := by
    decide +kernel
  have hchecked := fun tokens =>
    knowing.deduce_checkVocabulary (W := WithBot ℚ) hvocabulary "cmd" tokens [] false
  obtain ⟨called, hcalled, hlength⟩ := exists_of_toOption_map_eq_some
    (by decide +kernel : ((knowing.deduce "cmd" ["CALL", "john"] [] ⟨false, false⟩ :
      Except _ (Deduction (WithBot ℚ))).map (·.derivations.length)).toOption = some 1)
  obtain ⟨boss, hboss, hone⟩ := exists_of_toOption_map_eq_some
    (by decide +kernel : ((knowing.deduce "cmd" ["call", "the", "boss"] [] ⟨false, false⟩ :
      Except _ (Deduction (WithBot ℚ))).map (·.derivations.length)).toOption = some 1)
  refine ⟨hvocabulary, ⟨called, ?_, hlength⟩, boss, hboss, hone, ?_⟩
  · rw [hchecked, hcalled, Except.map, if_pos hknown]
  · rw [hchecked, hboss, Except.map, if_neg hunknown]

end Scope

end SpeechGrammar
