import Mathlib.Data.Finset.Prod
import SpeechGrammar.Proofs.Deduction.Firsts
import SpeechGrammar.Proofs.Deduction.Fitting
import SpeechGrammar.Proofs.Expansion.Everywhere
import SpeechGrammar.Proofs.Grammar.Linking
import SpeechGrammar.Proofs.ExactProbability
import SpeechGrammar.Proofs.Reachability

/-!
# Searches come to an end

The search for derivations is written down here as it goes, with the set of
rules being matched as a state and without any bound on how long it takes: a
rule is put into the set while its body is matched, and iterations follow each
other until none is left.  A search that is asked for something answers in one
way only.  It always does, with what it is computed to find, since rules and
places between tokens are finitely many and an iteration that there need not
be consumes a token.
-/

namespace SpeechGrammar

variable {P W : Type}

/-- What a search may be asked for. -/
inductive Task (P W : Type) where
  /-- Carry a match on over an expansion. -/
  | extend (expansion : Expansion P) (found : Partial W)
  /-- Carry matches on over an iteration, which must consume a token unless it is required. -/
  | iterate (body : Expansion P) (required : Bool) (partials : List (Partial W))
  /-- Carry matches on over items one behind another. -/
  | items (items : List (Expansion P)) (partials : List (Partial W))
  /-- Carry a match on over branches, one after another. -/
  | branches (branches : List (Branch P (Expansion P))) (found : Partial W)
  /-- Go on with iterations, of which some have been made. -/
  | rounds (body : Expansion P) (least : Nat) (most? : Option Nat) (count : Nat)
      (current : List (Partial W))

/--
Asked for a task while some rules are being matched, a search answers with some
matches and leaves some rules as being matched.
-/
inductive Scope.Answers [BranchWeight P] [LogWeight W] [Logarithm P W] (scope : Scope P)
    (query : Query) : Finset (Target × Nat) → Task P W → List (Partial W) →
      Finset (Target × Nat) → Prop where
  | word {active : Finset (Target × Nat)} {text : String} {found : Partial W}
      (hmatch : query.wordsMatch (Text.wordsOf text) (query.tokens.drop found.consumed) = true) :
      Answers scope query active (.extend (.literal text) found)
        [{ found with consumed := found.consumed + (Text.wordsOf text).length }] active
  | otherWord {active : Finset (Target × Nat)} {text : String} {found : Partial W}
      (hdiffer : query.wordsMatch (Text.wordsOf text) (query.tokens.drop found.consumed) = false) :
      Answers scope query active (.extend (.literal text) found) [] active
  | unbound {active : Finset (Target × Nat)} {link : Reference} {found : Partial W}
      (htarget : link.target? = none) :
      Answers scope query active (.extend (.reference link) found) [] active
  | cut {active : Finset (Target × Nat)} {link : Reference} {target : Target} {found : Partial W}
      (htarget : link.target? = some target) (hactive : (target, found.consumed) ∈ active) :
      Answers scope query active (.extend (.reference link) found) [] active
  | missing {active : Finset (Target × Nat)} {link : Reference} {target : Target}
      {found : Partial W} (htarget : link.target? = some target)
      (hnew : (target, found.consumed) ∉ active) (hrule : scope.follow? target = none) :
      Answers scope query active (.extend (.reference link) found) [] active
  | enter {active left : Finset (Target × Nat)} {link : Reference} {target : Target}
      {rule : Rule P} {found : Partial W} {laters : List (Partial W)}
      (htarget : link.target? = some target) (hnew : (target, found.consumed) ∉ active)
      (hrule : scope.follow? target = some rule)
      (hbody : Answers scope query (insert (target, found.consumed) active)
        (.extend rule.body found) laters left) :
      Answers scope query active (.extend (.reference link) found) laters
        (left.erase (target, found.consumed))
  | sequence {active left : Finset (Target × Nat)} {items : List (Expansion P)}
      {found : Partial W} {laters : List (Partial W)}
      (hitems : Answers scope query active (.items items [found]) laters left) :
      Answers scope query active (.extend (.sequence items) found) laters left
  | noItem {active : Finset (Target × Nat)} {partials : List (Partial W)} :
      Answers scope query active (.items [] partials) partials active
  | item {active between left : Finset (Target × Nat)} {item : Expansion P}
      {items : List (Expansion P)} {partials nexts laters : List (Partial W)}
      (hitem : Answers scope query active (.iterate item true partials) nexts between)
      (hitems : Answers scope query between (.items items (Partial.firsts nexts)) laters left) :
      Answers scope query active (.items (item :: items) partials) laters left
  | alternation {active left : Finset (Target × Nat)}
      {branches : List (Branch P (Expansion P))} {found : Partial W} {laters : List (Partial W)}
      (hbranches : Answers scope query active (.branches branches found) laters left) :
      Answers scope query active (.extend (.alternation branches) found) (Partial.firsts laters)
        left
  | noBranch {active : Finset (Target × Nat)} {found : Partial W} :
      Answers scope query active (.branches [] found) [] active
  | neverTaken {active left : Finset (Target × Nat)} {branch : Branch P (Expansion P)}
      {branches : List (Branch P (Expansion P))} {found : Partial W} {laters : List (Partial W)}
      (hnever : ¬ 0 < branch.probability)
      (hrest : Answers scope query active (.branches branches found) laters left) :
      Answers scope query active (.branches (branch :: branches) found) laters left
  | taken {active between left : Finset (Target × Nat)} {branch : Branch P (Expansion P)}
      {branches : List (Branch P (Expansion P))} {found : Partial W}
      {laters more : List (Partial W)} (hpositive : 0 < branch.probability)
      (hbody : Answers scope query active (.extend branch.body
        { found with score := found.score + Logarithm.ln branch.probability }) laters between)
      (hrest : Answers scope query between (.branches branches found) more left) :
      Answers scope query active (.branches (branch :: branches) found) (laters ++ more) left
  | repetition {active left : Finset (Target × Nat)} {body : Expansion P} {least : Nat}
      {most? : Option Nat} {found : Partial W} {laters : List (Partial W)}
      (hrounds : Answers scope query active (.rounds body least most? 0 [found]) laters left) :
      Answers scope query active (.extend (.repetition body least most?) found)
        (Partial.firsts laters) left
  | optional {active left : Finset (Target × Nat)} {body : Expansion P} {found : Partial W}
      {laters : List (Partial W)}
      (hrounds : Answers scope query active (.rounds body 0 (some 1) 0 [found]) laters left) :
      Answers scope query active (.extend (.optional body) found) (Partial.firsts laters) left
  | tagged {active left : Finset (Target × Nat)} {body : Expansion P} {tags : List Tag}
      {found : Partial W} {laters : List (Partial W)}
      (hbody : Answers scope query active
        (.extend body { found with tags := found.tags.insertAll tags }) laters left) :
      Answers scope query active (.extend (.tagged body tags) found) laters left
  | noMatch {active : Finset (Target × Nat)} {body : Expansion P} {required : Bool} :
      Answers scope query active (.iterate body required []) [] active
  | nextMatch {active between left : Finset (Target × Nat)} {body : Expansion P}
      {required : Bool} {found : Partial W} {partials laters more : List (Partial W)}
      (hbody : Answers scope query active (.extend body found) laters between)
      (hrest : Answers scope query between (.iterate body required partials) more left) :
      Answers scope query active (.iterate body required (found :: partials))
        (laters.filter (fun later => required || found.consumed < later.consumed) ++ more) left
  | full {active : Finset (Target × Nat)} {body : Expansion P} {least : Nat}
      {most? : Option Nat} {count : Nat} {current : List (Partial W)}
      (hmost : most?.any (· ≤ count) = true) :
      Answers scope query active (.rounds body least most? count current)
        (if least ≤ count then current else []) active
  | exhausted {active left : Finset (Target × Nat)} {body : Expansion P} {least : Nat}
      {most? : Option Nat} {count : Nat} {current : List (Partial W)}
      (hmost : most?.any (· ≤ count) = false)
      (hnone : Answers scope query active (.iterate body (count < least) current) [] left) :
      Answers scope query active (.rounds body least most? count current)
        (if least ≤ count then current else []) left
  | again {active between left : Finset (Target × Nat)} {body : Expansion P} {least : Nat}
      {most? : Option Nat} {count : Nat} {current nexts laters : List (Partial W)}
      (hmost : most?.any (· ≤ count) = false)
      (hsome : Answers scope query active (.iterate body (count < least) current) nexts between)
      (hnexts : nexts ≠ [])
      (hrounds : Answers scope query between
        (.rounds body least most? (count + 1) (Partial.firsts nexts)) laters left) :
      Answers scope query active (.rounds body least most? count current)
        (laters ++ if least ≤ count then current else []) left

variable [BranchWeight P] [LogWeight W] [Logarithm P W]

namespace Scope

variable {scope : Scope P} {query : Query} {active : Finset (Target × Nat)}

/-- A search answers in one way only. -/
theorem Answers.unique {task : Task P W} {laters others : List (Partial W)}
    {left rest : Finset (Target × Nat)} (hfirst : scope.Answers query active task laters left)
    (hsecond : scope.Answers query active task others rest) : others = laters ∧ rest = left := by
  induction hfirst generalizing others rest with
  | word hmatch =>
      cases hsecond with
      | word => exact ⟨rfl, rfl⟩
      | otherWord hdiffer => cases hmatch.symm.trans hdiffer
  | otherWord hdiffer =>
      cases hsecond with
      | word hmatch => cases hmatch.symm.trans hdiffer
      | otherWord => exact ⟨rfl, rfl⟩
  | unbound htarget =>
      cases hsecond with
      | unbound => exact ⟨rfl, rfl⟩
      | cut hother => cases htarget.symm.trans hother
      | missing hother => cases htarget.symm.trans hother
      | enter hother => cases htarget.symm.trans hother
  | cut htarget hactive =>
      cases hsecond with
      | unbound hother => cases htarget.symm.trans hother
      | cut => exact ⟨rfl, rfl⟩
      | missing => exact ⟨rfl, rfl⟩
      | enter hother hnew =>
          obtain rfl := Option.some.inj (htarget.symm.trans hother)
          exact absurd hactive hnew
  | missing htarget hnew hrule =>
      cases hsecond with
      | unbound hother => cases htarget.symm.trans hother
      | cut => exact ⟨rfl, rfl⟩
      | missing => exact ⟨rfl, rfl⟩
      | enter hother _ hfound =>
          obtain rfl := Option.some.inj (htarget.symm.trans hother)
          cases hrule.symm.trans hfound
  | enter htarget hnew hrule _ ih =>
      cases hsecond with
      | unbound hother => cases htarget.symm.trans hother
      | cut hother hactive =>
          obtain rfl := Option.some.inj (htarget.symm.trans hother)
          exact absurd hactive hnew
      | missing hother _ hnone =>
          obtain rfl := Option.some.inj (htarget.symm.trans hother)
          cases hrule.symm.trans hnone
      | enter hother _ hfound hbody =>
          obtain rfl := Option.some.inj (htarget.symm.trans hother)
          obtain rfl := Option.some.inj (hrule.symm.trans hfound)
          obtain ⟨rfl, rfl⟩ := ih hbody
          exact ⟨rfl, rfl⟩
  | sequence _ ih =>
      cases hsecond with
      | sequence hitems => exact ih hitems
  | noItem =>
      cases hsecond
      exact ⟨rfl, rfl⟩
  | item _ _ ihItem ihItems =>
      cases hsecond with
      | item hitem hitems =>
          obtain ⟨rfl, rfl⟩ := ihItem hitem
          exact ihItems hitems
  | alternation _ ih =>
      cases hsecond with
      | alternation hbranches =>
          obtain ⟨rfl, rfl⟩ := ih hbranches
          exact ⟨rfl, rfl⟩
  | noBranch =>
      cases hsecond
      exact ⟨rfl, rfl⟩
  | neverTaken hnever _ ih =>
      cases hsecond with
      | neverTaken _ hrest => exact ih hrest
      | taken hpositive => exact absurd hpositive hnever
  | taken hpositive _ _ ihBody ihRest =>
      cases hsecond with
      | neverTaken hnever => exact absurd hpositive hnever
      | taken _ hbody hrest =>
          obtain ⟨rfl, rfl⟩ := ihBody hbody
          obtain ⟨rfl, rfl⟩ := ihRest hrest
          exact ⟨rfl, rfl⟩
  | repetition _ ih =>
      cases hsecond with
      | repetition hrounds =>
          obtain ⟨rfl, rfl⟩ := ih hrounds
          exact ⟨rfl, rfl⟩
  | optional _ ih =>
      cases hsecond with
      | optional hrounds =>
          obtain ⟨rfl, rfl⟩ := ih hrounds
          exact ⟨rfl, rfl⟩
  | tagged _ ih =>
      cases hsecond with
      | tagged hbody => exact ih hbody
  | noMatch =>
      cases hsecond
      exact ⟨rfl, rfl⟩
  | nextMatch _ _ ihBody ihRest =>
      cases hsecond with
      | nextMatch hbody hrest =>
          obtain ⟨rfl, rfl⟩ := ihBody hbody
          obtain ⟨rfl, rfl⟩ := ihRest hrest
          exact ⟨rfl, rfl⟩
  | full hmost =>
      cases hsecond with
      | full => exact ⟨rfl, rfl⟩
      | exhausted hmore => cases hmost.symm.trans hmore
      | again hmore => cases hmost.symm.trans hmore
  | exhausted hmost _ ih =>
      cases hsecond with
      | full hother => cases hmost.symm.trans hother
      | exhausted _ hnone => exact ⟨rfl, (ih hnone).2⟩
      | again _ hsome hnexts => exact absurd (ih hsome).1 hnexts
  | again hmost _ hnexts _ ihSome ihRounds =>
      cases hsecond with
      | full hother => cases hmost.symm.trans hother
      | exhausted _ hnone => exact absurd (ihSome hnone).1.symm hnexts
      | again _ hsome _ hrounds =>
          obtain ⟨rfl, rfl⟩ := ihSome hsome
          obtain ⟨rfl, rfl⟩ := ihRounds hrounds
          exact ⟨rfl, rfl⟩

end Scope

/-! ## Answers are given -/

omit [BranchWeight P] [LogWeight W] [Logarithm P W] in
/-- All of some matches stand between a place and the end of the tokens. -/
def Query.Spans (query : Query) (place : Nat) (partials : List (Partial W)) : Prop :=
  ∀ found ∈ partials, place ≤ found.consumed ∧ found.consumed ≤ query.tokens.length

namespace Query.Spans

variable {query : Query} {place : Nat} {partials others : List (Partial W)}

omit [BranchWeight P] [LogWeight W] [Logarithm P W]

theorem nil : query.Spans place ([] : List (Partial W)) := fun _ hfound => nomatch hfound

theorem mono (hspans : query.Spans place partials) {before : Nat} (hle : before ≤ place) :
    query.Spans before partials :=
  fun found hfound => ⟨hle.trans (hspans found hfound).1, (hspans found hfound).2⟩

theorem append (hspans : query.Spans place partials) (hothers : query.Spans place others) :
    query.Spans place (partials ++ others) :=
  List.forall_mem_append.mpr ⟨hspans, hothers⟩

theorem firsts (hspans : query.Spans place partials) :
    query.Spans place (Partial.firsts partials) :=
  fun found hfound => hspans found (Partial.mem_of_mem_firsts hfound)

theorem ite (hspans : query.Spans place partials) (condition : Prop) [Decidable condition] :
    query.Spans place (if condition then partials else []) := by
  split
  · exact hspans
  · exact nil

theorem singleton {found : Partial W} (hfound : found.consumed ≤ query.tokens.length) :
    query.Spans found.consumed [found] :=
  List.forall_mem_singleton.mpr ⟨le_refl _, hfound⟩

end Query.Spans

namespace Scope

variable {scope : Scope P} {query : Query} {active : Finset (Target × Nat)}

/--
Asked to carry a match on over an expansion, a search answers with what a step
finds, which stands behind the match, and leaves the same rules as being matched.
-/
def Settles (scope : Scope P) (query : Query) (active : Finset (Target × Nat))
    (expansion : Expansion P) (step : Partial W → List (Partial W)) : Prop :=
  ∀ found, found.consumed ≤ query.tokens.length →
    scope.Answers query active (.extend expansion found) (step found) active ∧
      query.Spans found.consumed (step found)

section Settles

variable {body : Expansion P} {step : Partial W → List (Partial W)} {place : Nat}

/-- Matches are carried on over an iteration one by one, further if it is not required. -/
theorem Settles.iterate (hsettles : scope.Settles query active body step) (required : Bool)
    {partials : List (Partial W)} (hspans : query.Spans place partials) :
    scope.Answers query active (.iterate body required partials)
        (partials.flatMap fun found => (step found).filter fun later =>
          required || found.consumed < later.consumed) active ∧
      query.Spans (if required then place else place + 1)
        (partials.flatMap fun found => (step found).filter fun later =>
          required || found.consumed < later.consumed) := by
  induction partials with
  | nil => exact ⟨.noMatch, .nil⟩
  | cons found partials ih =>
      obtain ⟨⟨hplace, hfound⟩, hpartials⟩ := List.forall_mem_cons.mp hspans
      obtain ⟨hbody, hforward⟩ := hsettles found hfound
      obtain ⟨hrest, hspansRest⟩ := ih hpartials
      rw [List.flatMap_cons]
      refine ⟨.nextMatch hbody hrest, Query.Spans.append (fun later hlater => ?_) hspansRest⟩
      obtain ⟨hmem, hfurther⟩ := List.mem_filter.mp hlater
      obtain ⟨hle, hend⟩ := hforward later hmem
      cases required with
      | true => exact ⟨hplace.trans hle, hend⟩
      | false =>
          have hless : found.consumed < later.consumed := by simpa using hfurther
          exact ⟨Nat.succ_le_of_lt (Nat.lt_of_le_of_lt hplace hless), hend⟩

/--
Iterations come to an end: each one is either one of those that are required or
consumes a token, so there are no more of them than the allowance.
-/
theorem Settles.rounds (hsettles : scope.Settles query active body step) (least : Nat)
    (most? : Option Nat) {allowance count : Nat} {current : List (Partial W)}
    (hspans : query.Spans place current)
    (hallowance : least - count + (query.tokens.length - place) < allowance) :
    scope.Answers query active (.rounds body least most? count current)
        (Partial.iterations step least most? allowance count current) active ∧
      query.Spans place (Partial.iterations step least most? allowance count current) := by
  induction allowance generalizing count place current with
  | zero => exact absurd hallowance (Nat.not_lt_zero _)
  | succ allowance ih =>
      obtain ⟨hiterate, hfurther⟩ := hsettles.iterate (count < least) hspans
      have hhere := hspans.ite (least ≤ count)
      rw [Partial.iterations]
      dsimp only
      split
      · rename_i hmost
        exact ⟨.full hmost, hhere⟩
      · rename_i hmost
        have hmore := Bool.eq_false_iff.mpr hmost
        split
        · rename_i hempty
          refine ⟨.exhausted hmore ?_, hhere⟩
          rwa [Partial.firsts_eq_nil_iff.mp (List.isEmpty_iff.mp hempty)] at hiterate
        · rename_i hsome
          have hnexts := fun hnil =>
            hsome (List.isEmpty_iff.mpr (Partial.firsts_eq_nil_iff.mpr hnil))
          obtain ⟨first, hfirst⟩ := List.exists_mem_of_ne_nil _ hnexts
          obtain ⟨hplace, hend⟩ := hfurther first hfirst
          have hless : least - (count + 1) + (query.tokens.length -
              if decide (count < least) = true then place else place + 1) < allowance := by
            simp only [decide_eq_true_eq] at hplace ⊢
            split <;> split at hplace <;> omega
          obtain ⟨hrounds, hlater⟩ := ih hfurther.firsts hless
          refine ⟨.again hmore hiterate hnexts hrounds, (hlater.mono ?_).append hhere⟩
          split <;> omega

theorem Settles.repeated (hsettles : scope.Settles query active body step) (least : Nat)
    (most? : Option Nat) {found : Partial W} (hfound : found.consumed ≤ query.tokens.length) :
    (∃ laters, scope.Answers query active (.rounds body least most? 0 [found]) laters active ∧
        Partial.repeated query step least most? found = Partial.firsts laters) ∧
      query.Spans found.consumed (Partial.repeated query step least most? found) := by
  have hallowance : least - 0 + (query.tokens.length - found.consumed) <
      least + (query.tokens.length - found.consumed) + 1 := Nat.lt_succ_self _
  obtain ⟨hrounds, hspans⟩ :=
    hsettles.rounds least most? (Query.Spans.singleton hfound) hallowance
  exact ⟨⟨_, hrounds, rfl⟩, hspans.firsts⟩

end Settles

section Expansions

variable {follow : Reference → Partial W → List (Partial W)}

theorem settles_items {items : List (Expansion P)}
    (hitems : ∀ item ∈ items, scope.Settles query active item (item.extend query follow))
    {place : Nat} {partials : List (Partial W)} (hspans : query.Spans place partials) :
    scope.Answers query active (.items items partials)
        (Expansion.extendItems query follow items partials) active ∧
      query.Spans place (Expansion.extendItems query follow items partials) := by
  induction items generalizing partials with
  | nil => exact ⟨.noItem, hspans⟩
  | cons item items ih =>
      obtain ⟨hitem, hitems⟩ := List.forall_mem_cons.mp hitems
      obtain ⟨hanswers, hnexts⟩ := hitem.iterate true hspans
      simp only [Bool.true_or, List.filter_true, if_pos] at hanswers hnexts
      obtain ⟨hrest, hlater⟩ := ih hitems hnexts.firsts
      rw [Expansion.extendItems]
      exact ⟨.item hanswers hrest, hlater⟩

theorem settles_branches {branches : List (Branch P (Expansion P))}
    (hbranches : ∀ branch ∈ branches,
      scope.Settles query active branch.body (branch.body.extend query follow))
    {found : Partial W} (hfound : found.consumed ≤ query.tokens.length) :
    scope.Answers query active (.branches branches found)
        (Expansion.extendBranches query follow branches found) active ∧
      query.Spans found.consumed (Expansion.extendBranches query follow branches found) := by
  induction branches with
  | nil => exact ⟨.noBranch, .nil⟩
  | cons branch branches ih =>
      obtain ⟨hbranch, hbranches⟩ := List.forall_mem_cons.mp hbranches
      obtain ⟨hrest, hspansRest⟩ := ih hbranches
      obtain ⟨weight?, probability, body⟩ := branch
      rw [Expansion.extendBranches]
      split
      · rename_i hpositive
        obtain ⟨hbody, hspans⟩ :=
          hbranch { found with score := found.score + Logarithm.ln probability } hfound
        exact ⟨.taken (of_decide_eq_true hpositive) hbody hrest, hspans.append hspansRest⟩
      · rename_i hnever
        exact ⟨.neverTaken (fun hpositive => hnever (decide_eq_true hpositive)) hrest, hspansRest⟩

/-- Every expansion settles if references do. -/
theorem settles_extend
    (hfollow : ∀ link, scope.Settles query active (.reference link) (follow link))
    (expansion : Expansion P) :
    scope.Settles query active expansion (expansion.extend query follow) := by
  induction expansion using Expansion.structural with
  | literal text =>
      intro found hfound
      rw [Expansion.extend]
      split
      · rename_i hmatch
        refine ⟨.word hmatch, List.forall_mem_singleton.mpr ⟨Nat.le_add_right .., ?_⟩⟩
        have hlength := Query.length_le_of_wordsMatch hmatch
        rw [List.length_drop] at hlength
        dsimp only
        omega
      · rename_i hdiffer
        exact ⟨.otherWord (Bool.eq_false_iff.mpr hdiffer), .nil⟩
  | reference link => exact hfollow link
  | sequence items ih =>
      intro found hfound
      obtain ⟨hitems, hspans⟩ := settles_items ih (Query.Spans.singleton hfound)
      exact ⟨.sequence hitems, hspans⟩
  | alternation branches ih =>
      intro found hfound
      obtain ⟨hbranches, hspans⟩ := settles_branches ih hfound
      exact ⟨.alternation hbranches, hspans.firsts⟩
  | repetition body least most? ih =>
      intro found hfound
      obtain ⟨⟨laters, hrounds, heq⟩, hspans⟩ := ih.repeated least most? hfound
      rw [Expansion.extend]
      exact ⟨heq ▸ .repetition hrounds, hspans⟩
  | optional body ih =>
      intro found hfound
      obtain ⟨⟨laters, hrounds, heq⟩, hspans⟩ := ih.repeated 0 (some 1) hfound
      rw [Expansion.extend]
      exact ⟨heq ▸ .optional hrounds, hspans⟩
  | tagged body tags ih =>
      intro found hfound
      obtain ⟨hbody, hspans⟩ := ih { found with tags := found.tags.insertAll tags } hfound
      exact ⟨.tagged hbody, hspans⟩

end Expansions

/-! ## Rules and deductions -/

def entries (scope : Scope P) (query : Query) : Finset (Target × Nat) :=
  scope.targets.toFinset ×ˢ Finset.range (query.tokens.length + 1)

omit [BranchWeight P] in
theorem card_entries_le (scope : Scope P) (query : Query) :
    (scope.entries query).card ≤ scope.ruleCount * (query.tokens.length + 1) := by
  rw [entries, Finset.card_product, Finset.card_range, ← length_targets]
  exact Nat.mul_le_mul_right _ (List.toFinset_card_le _)

omit [BranchWeight P] in
/-- A rule that is not being matched at a token yet leaves fewer others once it is. -/
theorem card_sdiff_insert_lt {target : Target} {rule : Rule P} {start : Nat}
    (hrule : scope.follow? target = some rule) (hstart : start ≤ query.tokens.length)
    (hnew : (target, start) ∉ active) :
    (scope.entries query \ insert (target, start) active).card <
      (scope.entries query \ active).card := by
  have hentry : (target, start) ∈ scope.entries query := Finset.mem_product.mpr
    ⟨List.mem_toFinset.mpr (mem_targets hrule), Finset.mem_range.mpr (Nat.lt_succ_of_le hstart)⟩
  rw [Finset.sdiff_insert]
  exact Finset.card_erase_lt_of_mem (Finset.mem_sdiff.mpr ⟨hentry, hnew⟩)

/-- References settle if there is room for the rules that are not being matched yet. -/
theorem settles_followReference (scope : Scope P) (query : Query) (room : Nat)
    (opened : List (Target × Nat))
    (hroom : (scope.entries query \ opened.toFinset).card ≤ room) (link : Reference) :
    Settles (W := W) scope query opened.toFinset (.reference link)
      (scope.followReference query room opened link) := by
  induction room using Nat.strongRecOn generalizing opened link with
  | ind room ih =>
      intro found hfound
      unfold followReference
      cases htarget : link.target? with
      | none => exact ⟨.unbound htarget, .nil⟩
      | some target =>
          dsimp only
          split
          · rename_i hopen
            exact ⟨.cut htarget (List.mem_toFinset.mpr hopen), .nil⟩
          · rename_i hclosed
            have hnew : (target, found.consumed) ∉ opened.toFinset :=
              fun hmem => hclosed (List.mem_toFinset.mp hmem)
            cases hrule : scope.follow? target with
            | none => exact ⟨.missing htarget hnew hrule, .nil⟩
            | some rule =>
                have hless := card_sdiff_insert_lt hrule hfound hnew
                cases room with
                | zero => exact absurd (hless.trans_le hroom) (Nat.not_lt_zero _)
                | succ room =>
                    have hinside : (scope.entries query \
                        ((target, found.consumed) :: opened).toFinset).card ≤ room := by
                      rw [List.toFinset_cons]
                      omega
                    obtain ⟨hbody, hspans⟩ := settles_extend
                      (fun inner => ih room (Nat.lt_succ_self room) _ hinside inner) rule.body
                      found hfound
                    rw [List.toFinset_cons] at hbody
                    have henter := Answers.enter htarget hnew hrule hbody
                    rw [Finset.erase_insert hnew] at henter
                    exact ⟨henter, hspans⟩

/-- A search comes to what can be matched from any rules being matched, with enough room. -/
theorem settles_of_card_le (scope : Scope P) (query : Query) (opened : List (Target × Nat))
    {room : Nat} (hroom : scope.ruleCount * (query.tokens.length + 1) ≤ room)
    (expansion : Expansion P) :
    Settles (W := W) scope query opened.toFinset expansion
      (expansion.extend query (scope.followReference query room opened)) := by
  refine settles_extend (scope.settles_followReference query room opened ?_) expansion
  calc
    (scope.entries query \ opened.toFinset).card ≤ (scope.entries query).card :=
      Finset.card_le_card Finset.sdiff_subset
    _ ≤ room := (scope.card_entries_le query).trans hroom

/-- The rules that a rule leads to are gone through, up to the first that cannot be used. -/
def Checks (scope : Scope P) (target : Target) (outcome : Option Unusable) : Prop :=
  Graph.Sweeps scope.successors (fun reached => (scope.follow? reached).bind Rule.unusable?) []
    [target] outcome

omit [BranchWeight P] in
/-- Going through the rules below a rule comes to an end. -/
theorem checks_iff {target : Target} {outcome : Option Unusable} :
    scope.Checks target outcome ↔ scope.unusableBelow? target = outcome := by
  have hleaf : ∀ other, other ∉ scope.targets → scope.successors other = [] := by
    intro other hother
    rw [successors]
    cases hrule : scope.follow? other with
    | none => rfl
    | some rule => exact absurd (mem_targets hrule) hother
  have hallowance : scope.targets.length < scope.ruleCount + 2 := by
    rw [length_targets]
    omega
  have hchecks : scope.Checks target (scope.unusableBelow? target) :=
    Graph.sweeps_reachable hleaf hallowance [target]
  exact ⟨fun hother => hchecks.unique hother, fun heq => heq ▸ hchecks⟩

/--
How tokens are matched against a public rule: all that it leads to is checked,
and if it can be used the rule's body is matched while the rule itself is being
matched at the first token.
-/
inductive Deduces (scope : Scope P) (rule : String) (tokens : List String)
    (assignments : List Assignment) (policy : MatchPolicy) :
    Except (Refusal P) (Deduction W) → Prop where
  | refused {refusal : Refusal P} (hpublic : scope.grammar.public rule = .error refusal) :
      Deduces scope rule tokens assignments policy (.error refusal)
  | unusable {target : Target} {top : Rule P} {reason : Unusable}
      (hpublic : scope.grammar.public rule = .ok (target, top))
      (hcheck : scope.Checks target (some reason)) :
      Deduces scope rule tokens assignments policy (.error (.unusable reason))
  | matched {target : Target} {top : Rule P} {partials : List (Partial W)}
      {left : Finset (Target × Nat)} (hpublic : scope.grammar.public rule = .ok (target, top))
      (hcheck : scope.Checks target none)
      (hbody : scope.Answers ⟨tokens, policy, scope.grammar.vocabulary⟩ {(target, 0)}
        (.extend top.body .start) partials left) :
      Deduces scope rule tokens assignments policy
        (.ok { derivations := Derivation.firsts (complete tokens.length assignments partials) })

/-- Matching tokens against a rule comes to an end with what is computed. -/
theorem deduces_iff {rule : String} {tokens : List String} {assignments : List Assignment}
    {policy : MatchPolicy} {outcome : Except (Refusal P) (Deduction W)} :
    scope.Deduces rule tokens assignments policy outcome ↔
      scope.deduce rule tokens assignments policy = outcome := by
  have hsettles : ∀ (target : Target) (top : Rule P),
      Settles (W := W) scope ⟨tokens, policy, scope.grammar.vocabulary⟩ {(target, 0)} top.body
        (top.body.extend ⟨tokens, policy, scope.grammar.vocabulary⟩
          (scope.followReference ⟨tokens, policy, scope.grammar.vocabulary⟩
            (scope.ruleCount * (tokens.length + 1)) [(target, 0)])) :=
    fun target top => scope.settles_of_card_le _ [(target, 0)] (le_refl _) top.body
  rw [deduce]
  constructor
  · rintro (hpublic | ⟨hpublic, hcheck⟩ | ⟨hpublic, hcheck, hbody⟩)
    · rw [hpublic]
      rfl
    · rw [hpublic]
      dsimp only [bind, Except.bind]
      rw [checks_iff.mp hcheck]
    · rw [hpublic]
      dsimp only [bind, Except.bind]
      rw [checks_iff.mp hcheck]
      obtain ⟨rfl, -⟩ := (hsettles _ _ .start (Nat.zero_le _)).1.unique hbody
      rfl
  · rintro rfl
    cases hpublic : scope.grammar.public rule with
    | error refusal => exact .refused hpublic
    | ok found =>
        obtain ⟨target, top⟩ := found
        dsimp only [bind, Except.bind]
        cases hcheck : scope.unusableBelow? target with
        | some reason => exact .unusable hpublic (checks_iff.mpr hcheck)
        | none =>
            exact .matched hpublic (checks_iff.mpr hcheck)
              (hsettles target top .start (Nat.zero_le _)).1

/--
Deduction always comes to an end, in one way, with what is computed.  Whatever
rules are being matched, every expansion carries every match on to finitely many
others, between the match and the end of the tokens, and the same rules are
being matched afterwards.
-/
theorem deduction_terminates (scope : Scope P) :
    (∀ (rule : String) (tokens : List String) (assignments : List Assignment)
        (policy : MatchPolicy) (outcome : Except (Refusal P) (Deduction W)),
      scope.Deduces rule tokens assignments policy outcome ↔
        scope.deduce rule tokens assignments policy = outcome) ∧
      ∀ (query : Query) (active : Finset (Target × Nat)) (expansion : Expansion P)
        (found : Partial W), found.consumed ≤ query.tokens.length →
        ∃ laters : List (Partial W),
          (∀ others left, scope.Answers query active (.extend expansion found) others left ↔
            others = laters ∧ left = active) ∧
          ∀ later ∈ laters, found.consumed ≤ later.consumed ∧
            later.consumed ≤ query.tokens.length := by
  refine ⟨fun _ _ _ _ _ => deduces_iff, fun query active expansion found hfound => ?_⟩
  have hsettles := scope.settles_of_card_le (W := W) query active.toList (le_refl _) expansion
  rw [Finset.toList_toFinset] at hsettles
  obtain ⟨hanswers, hspans⟩ := hsettles found hfound
  refine ⟨_, fun others left => ⟨hanswers.unique, ?_⟩, hspans⟩
  rintro ⟨rfl, rfl⟩
  exact hanswers

def churningText : String := "public <churn> = ([<churn>] [again])*;"

def churning : Scope ℚ := (parseLenient ⟨0⟩ churningText none).1

/--
Deducing `again again` ends with one derivation, and matching `<churn>` while another rule is active
ends with the same active rules.
-/
theorem churning_terminates :
    (∃ deduction : Deduction (WithBot ℚ),
      churning.Deduces "churn" ["again", "again"] [] {} (.ok deduction) ∧
        deduction.derivations.length = 1) ∧
      ∃ laters : List (Partial (WithBot ℚ)),
        churning.Answers ⟨["again", "again"], {}, .empty⟩ {(⟨⟨1⟩, 0⟩, 1)}
          (.extend (.reference ⟨"churn", some ⟨⟨0⟩, 0⟩⟩) .start) laters {(⟨⟨1⟩, 0⟩, 1)} ∧
        ∀ later ∈ laters, later.consumed ≤ 2 := by
  obtain ⟨hdeduces, hanswers⟩ := churning.deduction_terminates (W := WithBot ℚ)
  obtain ⟨deduction, hdeduce, hone⟩ := exists_of_toOption_map_eq_some
    (by decide +kernel : ((churning.deduce "churn" ["again", "again"] [] {} :
      Except _ (Deduction (WithBot ℚ))).map (·.derivations.length)).toOption = some 1)
  obtain ⟨laters, hlaters, hplaces⟩ := hanswers ⟨["again", "again"], {}, .empty⟩
    {(⟨⟨1⟩, 0⟩, 1)} (.reference ⟨"churn", some ⟨⟨0⟩, 0⟩⟩) .start (Nat.zero_le 2)
  exact ⟨⟨deduction, (hdeduces ..).mpr hdeduce, hone⟩, laters,
    (hlaters _ _).mpr ⟨rfl, rfl⟩, fun later hlater => (hplaces later hlater).2⟩

end Scope

end SpeechGrammar
