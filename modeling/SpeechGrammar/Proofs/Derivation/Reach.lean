import Mathlib.Logic.Relation
import SpeechGrammar.Proofs.Derivation.Tree

/-!
# What a rule can come to

Expanding a rule can come to those parts of its body that lie on branches that
can be taken and in repetitions that can iterate, and from a reference to the
body of the rule that it is bound to.  The words of derivation trees are all
come to in this way.
-/

namespace SpeechGrammar

variable {P : Type} [BranchWeight P]

/-- Expanding an expansion can come to a part of it. -/
inductive Expansion.Reaches (part : Expansion P) : Expansion P → Prop where
  | here : Reaches part part
  | sequence {items : List (Expansion P)} {item : Expansion P} (hmem : item ∈ items)
      (hitem : Reaches part item) : Reaches part (.sequence items)
  | alternation {branches : List (Branch P (Expansion P))} {branch : Branch P (Expansion P)}
      (hmem : branch ∈ branches) (hpositive : 0 < branch.probability)
      (hbody : Reaches part branch.body) : Reaches part (.alternation branches)
  | repetition {body : Expansion P} (least : Nat) {most? : Option Nat} (hmost : most? ≠ some 0)
      (hbody : Reaches part body) : Reaches part (.repetition body least most?)
  | optional {body : Expansion P} (hbody : Reaches part body) : Reaches part (.optional body)
  | tagged {body : Expansion P} (tags : List Tag) (hbody : Reaches part body) :
      Reaches part (.tagged body tags)

open Expansion (Reaches)

theorem Expansion.reaches_optional {body part : Expansion P}
    (hreaches : Reaches part (.repetition body 0 (some 1)))
    (hinside : part ≠ .repetition body 0 (some 1)) : Reaches part body.optional := by
  cases hreaches with
  | here => exact absurd rfl hinside
  | repetition _ _ hbody => exact .optional hbody

namespace Scope

def Calls (scope : Scope P) (first second : Target) : Prop :=
  ∃ rule link, scope.follow? first = some rule ∧ Reaches (.reference link) rule.body ∧
    link.target? = some second

def Leads (scope : Scope P) : Target → Target → Prop := Relation.ReflTransGen scope.Calls

def Utters (scope : Scope P) (target : Target) (text : String) : Prop :=
  ∃ other rule, scope.Leads target other ∧ scope.follow? other = some rule ∧
    Reaches (.literal text) rule.body

theorem Calls.utters {scope : Scope P} {first second : Target} {text : String}
    (hcalls : scope.Calls first second) (hutters : scope.Utters second text) :
    scope.Utters first text := by
  obtain ⟨other, rule, hleads, hrule, hreaches⟩ := hutters
  exact ⟨other, rule, .head hcalls hleads, hrule, hreaches⟩

end Scope

/-- Expanding an expansion can come to a literal, in itself or behind a reference. -/
def Expansion.Utters (scope : Scope P) (expansion : Expansion P) (text : String) : Prop :=
  Reaches (.literal text) expansion ∨ ∃ link target, Reaches (.reference link) expansion ∧
    link.target? = some target ∧ scope.Utters target text

theorem Expansion.Utters.imp {scope : Scope P} {part expansion : Expansion P} {text : String}
    (hutters : part.Utters scope text)
    (hreaches : ∀ inner, Reaches inner part → Reaches inner expansion) :
    expansion.Utters scope text :=
  Or.imp (hreaches _) (fun ⟨link, target, hlink, htarget⟩ =>
    ⟨link, target, hreaches _ hlink, htarget⟩) hutters

omit [BranchWeight P] in
theorem Tree.mem_yield_sequence_iff {trees : List (Tree P)} {text : String} :
    text ∈ (sequence trees).yield ↔ ∃ tree ∈ trees, text ∈ tree.yield := by
  induction trees with
  | nil => simp
  | cons tree trees ih => simp [ih]

omit [BranchWeight P] in
theorem exists_zip_of_mem_right {α β : Type} {firsts : List α} {seconds : List β}
    (hlength : firsts.length = seconds.length) {second : β} (hmem : second ∈ seconds) :
    ∃ first ∈ firsts, (first, second) ∈ firsts.zip seconds := by
  obtain ⟨index, hindex, rfl⟩ := List.getElem_of_mem hmem
  have hfirst : index < firsts.length := hlength ▸ hindex
  refine ⟨firsts[index], List.getElem_mem hfirst, ?_⟩
  refine List.mem_iff_getElem.mpr ⟨index, by simp [hfirst, hindex], by simp⟩

omit [BranchWeight P] in
theorem most_ne_zero_of_mem {most? : Option Nat} {trees : List (Tree P)}
    (hmost : ∀ most ∈ most?, trees.length ≤ most) {tree : Tree P} (htree : tree ∈ trees) :
    most? ≠ some 0 := by
  rintro rfl
  exact absurd (List.length_pos_of_mem htree) (Nat.not_lt.mpr (hmost 0 rfl))

/-- All literals of a tree are ones that the expansion comes to. -/
theorem Derives.utters {scope : Scope P} {expansion : Expansion P} {tree : Tree P}
    (hderives : Derives scope expansion tree) {text : String} (htext : text ∈ tree.yield) :
    expansion.Utters scope text := by
  induction hderives with
  | literal other =>
      obtain rfl := List.mem_singleton.mp htext
      exact .inl .here
  | @reference link target rule tree htarget hrule _ ih =>
      refine .inr ⟨link, target, .here, htarget, ?_⟩
      rcases ih htext with hliteral | ⟨inner, next, hinner, hnext, hutters⟩
      · exact ⟨target, rule, .refl, hrule, hliteral⟩
      · have hcalls : scope.Calls target next := ⟨rule, inner, hrule, hinner, hnext⟩
        exact hcalls.utters hutters
  | sequence hlength _ ih =>
      obtain ⟨tree, htree, hword⟩ := Tree.mem_yield_sequence_iff.mp htext
      obtain ⟨item, hitem, hpair⟩ := exists_zip_of_mem_right hlength htree
      exact (ih item tree hpair hword).imp fun _ => .sequence hitem
  | alternation hmem hpositive _ ih => exact (ih htext).imp fun _ => .alternation hmem hpositive
  | @repetition body least most? trees _ hmost _ ih =>
      obtain ⟨tree, htree, hword⟩ := Tree.mem_yield_sequence_iff.mp htext
      exact (ih tree htree hword).imp fun _ => .repetition least (most_ne_zero_of_mem hmost htree)
  | optional _ ih =>
      rcases ih htext with hliteral | ⟨link, target, hlink, htarget⟩
      · exact .inl (Expansion.reaches_optional hliteral (by simp))
      · exact .inr ⟨link, target, Expansion.reaches_optional hlink (by simp), htarget⟩
  | tagged _ ih => exact (ih htext).imp fun _ => .tagged _

/-- All literals that a public rule comes to are single words. -/
def Scope.SpeaksWords (scope : Scope P) (name : String) : Prop :=
  ∀ target rule, scope.grammar.public name = .ok (target, rule) →
    ∀ text, scope.Utters target text → Text.wordsOf text = [text]

/-- A rule whose literals are single words has trees that yield their words. -/
theorem Scope.SpeaksWords.words_eq {scope : Scope P} {name : String}
    (hspeaks : scope.SpeaksWords name) {tree : Tree P} (htree : scope.DerivesPublic name tree) :
    tree.words = tree.yield := by
  obtain ⟨target, rule, body, hpublic, rfl, hbody⟩ := htree
  have hrule := follow?_of_public hpublic
  have hsingle : ∀ text ∈ (Tree.rule target body).yield, Text.wordsOf text = [text] := by
    intro text htext
    refine hspeaks target rule hpublic text ?_
    rcases hbody.utters htext with hliteral | ⟨link, next, hlink, hnext, hutters⟩
    · exact ⟨target, rule, .refl, hrule, hliteral⟩
    · have hcalls : scope.Calls target next := ⟨rule, link, hrule, hlink, hnext⟩
      exact hcalls.utters hutters
  rw [Tree.words, List.flatMap_congr hsingle, List.flatMap_singleton']

namespace Expansion

mutual

def literals : Expansion P → List String
  | .literal text => [text]
  | .reference _ => []
  | .sequence items => literalsOfItems items
  | .alternation branches => literalsOfBranches branches
  | .repetition body _ _ => body.literals
  | .optional body => body.literals
  | .tagged body _ => body.literals

def literalsOfItems : List (Expansion P) → List String
  | [] => []
  | item :: items => item.literals ++ literalsOfItems items

def literalsOfBranches : List (Branch P (Expansion P)) → List String
  | [] => []
  | ⟨_, _, body⟩ :: branches => body.literals ++ literalsOfBranches branches

end

omit [BranchWeight P] in
theorem literalsOfItems_eq_flatMap (items : List (Expansion P)) :
    literalsOfItems items = items.flatMap (·.literals) := by
  induction items with
  | nil => rfl
  | cons item items ih => rw [literalsOfItems, List.flatMap_cons, ih]

omit [BranchWeight P] in
theorem literalsOfBranches_eq_flatMap (branches : List (Branch P (Expansion P))) :
    literalsOfBranches branches = branches.flatMap fun branch => branch.body.literals := by
  induction branches with
  | nil => rfl
  | cons branch branches ih => rw [literalsOfBranches, List.flatMap_cons, ih]

theorem mem_literals_of_reaches {text : String} {expansion : Expansion P}
    (hreaches : Reaches (.literal text) expansion) : text ∈ expansion.literals := by
  induction hreaches with
  | here => exact List.mem_singleton_self text
  | sequence hmem _ ih =>
      rw [literals, literalsOfItems_eq_flatMap]
      exact List.mem_flatMap.mpr ⟨_, hmem, ih⟩
  | alternation hmem _ _ ih =>
      rw [literals, literalsOfBranches_eq_flatMap]
      exact List.mem_flatMap.mpr ⟨_, hmem, ih⟩
  | repetition _ _ _ ih => exact ih
  | optional _ ih => exact ih
  | tagged _ _ ih => exact ih

end Expansion

theorem Scope.speaksWords_of_literals {scope : Scope P} (name : String)
    (hwords : ∀ grammar ∈ scope.chain, ∀ rule ∈ grammar.rules, ∀ text ∈ rule.body.literals,
      Text.wordsOf text = [text]) : scope.SpeaksWords name := by
  rintro _ _ _ text ⟨other, rule, -, hrule, hreaches⟩
  rw [follow?, grammarWith?] at hrule
  cases hgrammar : scope.chain.find? (·.id == other.grammar) with
  | none => simp [hgrammar] at hrule
  | some grammar =>
      rw [hgrammar] at hrule
      exact hwords grammar (List.mem_of_find?_eq_some hgrammar) rule (List.mem_of_getElem? hrule)
        text (Expansion.mem_literals_of_reaches hreaches)

end SpeechGrammar
