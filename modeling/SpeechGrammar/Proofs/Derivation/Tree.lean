import SpeechGrammar.Proofs.ExactWeight
import SpeechGrammar.Grammar.Basic
import SpeechGrammar.SortedSet

/-!
# Derivation trees

A derivation tree says how an expansion is expanded: which branches are taken,
how often repetitions iterate and, below every reference, how the rule that it
is bound to is expanded.  A tree yields words, takes branches and traverses
tags, all read off it from left to right.
-/

namespace SpeechGrammar

inductive Tree (P : Type) where
  | word (text : String)
  | rule (target : Target) (body : Tree P)
  | sequence (items : List (Tree P))
  /-- A branch that is taken, with its probability. -/
  | branch (probability : P) (body : Tree P)
  /-- The iterations of a repetition of which there must be at least `least`. -/
  | iterations (least : Nat) (items : List (Tree P))
  | tagged (body : Tree P) (tags : List Tag)

namespace Tree

variable {P W α : Type}

mutual

def gather (ofWord : String → List α) (ofBranch : P → List α) (ofTags : List Tag → List α) :
    Tree P → List α
  | .word text => ofWord text
  | .rule _ body => body.gather ofWord ofBranch ofTags
  | .sequence items => gatherItems ofWord ofBranch ofTags items
  | .branch probability body => ofBranch probability ++ body.gather ofWord ofBranch ofTags
  | .iterations _ items => gatherItems ofWord ofBranch ofTags items
  | .tagged body tags => ofTags tags ++ body.gather ofWord ofBranch ofTags

def gatherItems (ofWord : String → List α) (ofBranch : P → List α) (ofTags : List Tag → List α) :
    List (Tree P) → List α
  | [] => []
  | item :: items =>
      item.gather ofWord ofBranch ofTags ++ gatherItems ofWord ofBranch ofTags items

end

def yield (tree : Tree P) : List String :=
  tree.gather (fun text => [text]) (fun _ => []) (fun _ => [])

def probabilities (tree : Tree P) : List P :=
  tree.gather (fun _ => []) (fun probability => [probability]) (fun _ => [])

def tags (tree : Tree P) : TagSet := .ofList (tree.gather (fun _ => []) (fun _ => []) id)

def words (tree : Tree P) : List String := tree.yield.flatMap Text.wordsOf

def width (tree : Tree P) : Nat := tree.words.length

def weight [BranchWeight P] [ExactWeight W] [Logarithm P W] (tree : Tree P) : W :=
  (tree.probabilities.map Logarithm.ln).sum

section Parts

variable (text : String) (target : Target) (body : Tree P) (probability : P) (least : Nat)
  (item : Tree P) (items : List (Tree P)) (taken : List Tag)

@[simp] theorem yield_word : (word text : Tree P).yield = [text] := rfl

@[simp] theorem yield_rule : (rule target body).yield = body.yield := rfl

@[simp] theorem yield_branch : (branch probability body).yield = body.yield := rfl

@[simp] theorem yield_iterations : (iterations least items).yield = (sequence items).yield := rfl

@[simp] theorem yield_tagged : (tagged body taken).yield = body.yield := rfl

@[simp] theorem yield_nil : (sequence [] : Tree P).yield = [] := rfl

@[simp] theorem yield_cons :
    (sequence (item :: items)).yield = item.yield ++ (sequence items).yield := rfl

@[simp] theorem words_word : (word text : Tree P).words = Text.wordsOf text := by
  simp [words]

@[simp] theorem words_rule : (rule target body).words = body.words := rfl

@[simp] theorem words_branch : (branch probability body).words = body.words := rfl

@[simp] theorem words_iterations : (iterations least items).words = (sequence items).words := rfl

@[simp] theorem words_tagged : (tagged body taken).words = body.words := rfl

@[simp] theorem words_nil : (sequence [] : Tree P).words = [] := rfl

@[simp] theorem words_cons :
    (sequence (item :: items)).words = item.words ++ (sequence items).words := by
  simp [words]

@[simp] theorem width_word : (word text : Tree P).width = (Text.wordsOf text).length := by
  simp [width]

@[simp] theorem width_rule : (rule target body).width = body.width := rfl

@[simp] theorem width_branch : (branch probability body).width = body.width := rfl

@[simp] theorem width_iterations : (iterations least items).width = (sequence items).width := rfl

@[simp] theorem width_tagged : (tagged body taken).width = body.width := rfl

@[simp] theorem width_nil : (sequence [] : Tree P).width = 0 := rfl

@[simp] theorem width_cons :
    (sequence (item :: items)).width = item.width + (sequence items).width := by
  simp [width]

@[simp] theorem tags_word : (word text : Tree P).tags = .empty := rfl

@[simp] theorem tags_rule : (rule target body).tags = body.tags := rfl

@[simp] theorem tags_branch : (branch probability body).tags = body.tags := rfl

@[simp] theorem tags_iterations : (iterations least items).tags = (sequence items).tags := rfl

@[simp] theorem tags_tagged :
    (tagged body taken).tags = (SortedSet.ofList taken).union body.tags :=
  SortedSet.ofList_append ..

@[simp] theorem tags_nil : (sequence [] : Tree P).tags = .empty := rfl

@[simp] theorem tags_cons :
    (sequence (item :: items)).tags = item.tags.union (sequence items).tags :=
  SortedSet.ofList_append ..

theorem words_sequence : (sequence items).words = items.flatMap (·.words) := by
  induction items with
  | nil => rfl
  | cons item items ih => rw [words_cons, ih, List.flatMap_cons]

theorem words_sequence_congr {others : List (Tree P)}
    (hwords : others.map (·.words) = items.map (·.words)) :
    (sequence others).words = (sequence items).words := by
  rw [words_sequence, words_sequence, List.flatMap_def, List.flatMap_def, hwords]

variable [BranchWeight P] [ExactWeight W] [Logarithm P W]

@[simp] theorem weight_word : ((word text : Tree P).weight : W) = 0 := rfl

@[simp] theorem weight_rule : ((rule target body).weight : W) = body.weight := rfl

@[simp] theorem weight_branch :
    ((branch probability body).weight : W) = Logarithm.ln probability + body.weight :=
  List.sum_cons

@[simp] theorem weight_iterations :
    ((iterations least items).weight : W) = (sequence items).weight := rfl

@[simp] theorem weight_tagged : ((tagged body taken).weight : W) = body.weight := rfl

@[simp] theorem weight_nil : ((sequence [] : Tree P).weight : W) = 0 := rfl

@[simp] theorem weight_cons :
    ((sequence (item :: items)).weight : W) = item.weight + (sequence items).weight := by
  simp [weight, probabilities, gather, gatherItems]

end Parts

end Tree

/-- What expansions can be expanded to, where references mean the rules of a scope. -/
inductive Derives {P : Type} [BranchWeight P] (scope : Scope P) : Expansion P → Tree P → Prop where
  | literal (text : String) : Derives scope (.literal text) (.word text)
  | reference {link : Reference} {target : Target} {rule : Rule P} {tree : Tree P}
      (htarget : link.target? = some target) (hrule : scope.follow? target = some rule)
      (hbody : Derives scope rule.body tree) :
      Derives scope (.reference link) (.rule target tree)
  | sequence {items : List (Expansion P)} {trees : List (Tree P)}
      (hlength : items.length = trees.length)
      (hitems : ∀ item tree, (item, tree) ∈ items.zip trees → Derives scope item tree) :
      Derives scope (.sequence items) (.sequence trees)
  | alternation {branches : List (Branch P (Expansion P))} {branch : Branch P (Expansion P)}
      {tree : Tree P} (hmem : branch ∈ branches) (hpositive : 0 < branch.probability)
      (hbody : Derives scope branch.body tree) :
      Derives scope (.alternation branches) (.branch branch.probability tree)
  | repetition {body : Expansion P} {least : Nat} {most? : Option Nat} {trees : List (Tree P)}
      (hleast : least ≤ trees.length) (hmost : ∀ most ∈ most?, trees.length ≤ most)
      (htrees : ∀ tree ∈ trees, Derives scope body tree) :
      Derives scope (.repetition body least most?) (.iterations least trees)
  | optional {body : Expansion P} {tree : Tree P}
      (htree : Derives scope (.repetition body 0 (some 1)) tree) :
      Derives scope (.optional body) tree
  | tagged {body : Expansion P} {tags : List Tag} {tree : Tree P}
      (hbody : Derives scope body tree) :
      Derives scope (.tagged body tags) (.tagged tree tags)

/-- The derivation trees of a public rule. -/
def Scope.DerivesPublic {P : Type} [BranchWeight P] (scope : Scope P) (name : String)
    (tree : Tree P) : Prop :=
  ∃ target rule body, scope.grammar.public name = .ok (target, rule) ∧
    tree = .rule target body ∧ Derives scope rule.body body

theorem Scope.follow?_of_public {P : Type} {scope : Scope P} {name : String} {target : Target}
    {rule : Rule P} (hpublic : scope.grammar.public name = .ok (target, rule)) :
    scope.follow? target = some rule := by
  have hindex : ∃ index, target = ⟨scope.grammar.id, index⟩ ∧
      scope.grammar.rules[index]? = some rule := by
    rw [Grammar.public, Grammar.publicRule?] at hpublic
    split at hpublic
    · rename_i index found hfound
      obtain ⟨rfl, rfl⟩ := Prod.mk.inj (Except.ok.inj hpublic)
      refine ⟨index, rfl, ?_⟩
      grind
    · cases hpublic
  obtain ⟨index, rfl, hrule⟩ := hindex
  have hgrammar : scope.grammarWith? scope.grammar.id = some scope.grammar := by
    simp [grammarWith?, chain]
  rw [follow?, hgrammar]
  exact hrule

/-- The trees of a public rule are those of a reference to it. -/
theorem Scope.derivesPublic_iff {P : Type} [BranchWeight P] {scope : Scope P} {name : String}
    {target : Target} {top : Rule P} (hpublic : scope.grammar.public name = .ok (target, top))
    {tree : Tree P} :
    scope.DerivesPublic name tree ↔ Derives scope (.reference ⟨name, some target⟩) tree := by
  constructor
  · rintro ⟨_, _, body, hother, rfl, hbody⟩
    obtain ⟨rfl, rfl⟩ := Prod.mk.inj (Except.ok.inj (hpublic.symm.trans hother))
    exact .reference rfl (follow?_of_public hpublic) hbody
  · intro hderives
    cases hderives with
    | reference htarget hrule hbody =>
        obtain rfl := Option.some.inj htarget
        obtain rfl := Option.some.inj ((follow?_of_public hpublic).symm.trans hrule)
        exact ⟨target, top, _, hpublic, rfl, hbody⟩

namespace Derives

variable {P : Type} [BranchWeight P] {scope : Scope P}

@[simp] theorem sequence_nil_iff {trees : List (Tree P)} :
    Derives scope (.sequence []) (.sequence trees) ↔ trees = [] := by
  constructor
  · intro hderives
    cases hderives with
    | sequence hlength => exact List.length_eq_zero_iff.mp hlength.symm
  · rintro rfl
    exact .sequence rfl (by simp)

theorem sequence_cons_iff {item : Expansion P} {items : List (Expansion P)}
    {trees : List (Tree P)} :
    Derives scope (.sequence (item :: items)) (.sequence trees) ↔
      ∃ tree rest, trees = tree :: rest ∧ Derives scope item tree ∧
        Derives scope (.sequence items) (.sequence rest) := by
  constructor
  · intro hderives
    cases hderives with
    | sequence hlength hitems =>
        cases trees with
        | nil => cases hlength
        | cons tree rest =>
            refine ⟨tree, rest, rfl, hitems item tree (List.mem_cons_self ..), ?_⟩
            exact .sequence (Nat.succ.inj hlength) fun other otherTree hmem =>
              hitems other otherTree (List.mem_cons_of_mem _ hmem)
  · rintro ⟨tree, rest, rfl, htree, hrest⟩
    cases hrest with
    | sequence hlength hitems =>
        refine .sequence (congrArg Nat.succ hlength) fun other otherTree hmem => ?_
        rcases List.mem_cons.mp hmem with heq | hmem
        · obtain ⟨rfl, rfl⟩ := Prod.mk.inj heq
          exact htree
        · exact hitems other otherTree hmem

/-- The trees of an expansion a number of times over are as many trees of it. -/
theorem sequence_replicate_iff {expansion : Expansion P} {count : Nat} {trees : List (Tree P)} :
    Derives scope (.sequence (List.replicate count expansion)) (.sequence trees) ↔
      trees.length = count ∧ ∀ tree ∈ trees, Derives scope expansion tree := by
  induction count generalizing trees with
  | zero =>
      rw [List.replicate_zero, sequence_nil_iff, List.length_eq_zero_iff]
      exact ⟨fun hnil => ⟨hnil, by simp [hnil]⟩, fun hboth => hboth.1⟩
  | succ count ih =>
      rw [List.replicate_succ, sequence_cons_iff]
      constructor
      · rintro ⟨tree, rest, rfl, htree, hrest⟩
        obtain ⟨hlength, hall⟩ := ih.mp hrest
        exact ⟨by rw [List.length_cons, hlength], List.forall_mem_cons.mpr ⟨htree, hall⟩⟩
      · rintro ⟨hlength, hall⟩
        obtain ⟨tree, rest, rfl⟩ := List.exists_cons_of_length_eq_add_one hlength
        obtain ⟨htree, hrest⟩ := List.forall_mem_cons.mp hall
        exact ⟨tree, rest, rfl, htree, ih.mpr ⟨Nat.succ.inj hlength, hrest⟩⟩

end Derives

end SpeechGrammar
