import SpeechGrammar.Proofs.Grammar.NameIndex
import SpeechGrammar.Proofs.Source.Written

/-!
# How scopes come about

No rule comes into a grammar but by reading a text.  Afterwards references may
be bound, probabilities computed and grammars copied, which changes bodies in
certain ways only.  So what holds of all bodies that are read, and is kept by
these changes, holds of all bodies of a scope, however it came about.
-/

namespace SpeechGrammar

open Source (Written)

variable {P : Type}

theorem exists_of_toOption_map_eq_some {ε α β : Type} {outcome : Except ε α} {measure : α → β}
    {known : β} (hknown : (outcome.map measure).toOption = some known) :
    ∃ value, outcome = .ok value ∧ measure value = known := by
  cases outcome with
  | error refusal => cases hknown
  | ok value => exact ⟨value, rfl, Option.some.inj hknown⟩

def Grammar.Bodies (good : Expansion P → Prop) (grammar : Grammar P) : Prop :=
  ∀ rule ∈ grammar.rules, good rule.body

def Scope.Bodies (good : Expansion P → Prop) (scope : Scope P) : Prop :=
  ∀ grammar ∈ scope.chain, grammar.Bodies good

namespace Draft

variable {draft : Draft P} {good : Expansion P → Prop}

theorem bodies_define {rule : Rule P} (hdraft : draft.grammar.Bodies good)
    (hrule : good rule.body) (duplicate : Source.SyntaxError) :
    (draft.define rule duplicate).grammar.Bodies good := by
  unfold define
  split
  · rename_i grammar hadd
    rw [Grammar.add?] at hadd
    split at hadd
    · cases hadd
    · obtain rfl := Option.some.inj hadd
      intro other hother
      rcases List.mem_append.mp hother with hother | hother
      · exact hdraft other hother
      · rwa [List.mem_singleton.mp hother]
  · exact hdraft

variable [BranchWeight P]

theorem written_take {statement : Source.Statement P} (text : List Char)
    (hdraft : draft.grammar.Bodies Written) (hstatement : statement.IsWritten) :
    (draft.take text statement).grammar.Bodies Written := by
  match statement with
  | .malformed _ => exact hdraft
  | .definition _ _ (.ok _) => exact bodies_define hdraft hstatement.2 _
  | .definition _ _ (.error _) => exact bodies_define hdraft Source.written_void _

/-- All rules that are read have bodies of the kind that is read. -/
theorem written_ofText {empty : Grammar P} (hempty : empty.Bodies Written) (text : List Char) :
    (ofText empty text).grammar.Bodies Written := by
  unfold ofText
  split
  · exact hempty
  · rename_i document hdocument
    have hstatements : ∀ statement ∈ document.statements, statement.IsWritten := by
      rw [Source.document] at hdocument
      cases hheader : Source.header text with
      | error failure =>
          rw [hheader] at hdocument
          cases hdocument
      | ok taken =>
          rw [hheader] at hdocument
          obtain rfl := Except.ok.inj hdocument
          exact fun statement => Source.isWritten_of_mem_statements
    have hfold : ∀ (statements : List (Source.Statement P)) (draft : Draft P),
        draft.grammar.Bodies Written →
        (∀ statement ∈ statements, statement.IsWritten) →
        (statements.foldl (Draft.take text) draft).grammar.Bodies Written := by
      intro statements
      induction statements with
      | nil => exact fun draft hdraft _ => hdraft
      | cons statement statements ih =>
          intro draft hdraft hall
          obtain ⟨hhead, hrest⟩ := List.forall_mem_cons.mp hall
          exact ih _ (written_take text hdraft hhead) hrest
    exact hfold _ _ hempty hstatements

end Draft

namespace Scope

variable [BranchWeight P]

/-- Scopes that come about by reading texts, and by what may be done to them afterwards. -/
inductive Prepared : Scope P → Prop where
  | empty (id : GrammarId) {parent? : Option (Scope P)}
      (hparent : ∀ parent ∈ parent?, Prepared parent) : Prepared (child id parent?)
  | read (id : GrammarId) (text : String) {parent? : Option (Scope P)}
      (hparent : ∀ parent ∈ parent?, Prepared parent) :
      Prepared (parseLenient id text parent?).1
  | resolve {scope : Scope P} (hscope : Prepared scope) : Prepared scope.resolve
  | normalize {scope : Scope P} (hscope : Prepared scope) : Prepared scope.normalize
  | copy {scope : Scope P} (hscope : Prepared scope) (id : GrammarId) : Prepared (scope.copy id)
  | addWord {scope : Scope P} (hscope : Prepared scope) (word : String) :
      Prepared { scope with grammar := scope.grammar.addWord word }

variable {scope : Scope P}

theorem parse_eq_ok_iff {id : GrammarId} {text : String} {parent? : Option (Scope P)} :
    parse id text parent? = .ok scope ↔ parseLenient id text parent? = (scope, []) := by
  rw [parse]
  obtain ⟨found, errors⟩ := parseLenient id text parent?
  cases errors <;> simp

/-- A scope that is read strictly is prepared if what it inherits from is. -/
theorem prepared_of_parse {id : GrammarId} {text : String} {parent? : Option (Scope P)}
    (hparent : ∀ parent ∈ parent?, parent.Prepared) (hparse : parse id text parent? = .ok scope) :
    scope.Prepared := by
  have hread := Prepared.read id text hparent
  rwa [parse_eq_ok_iff.mp hparse] at hread

theorem Prepared.indexed (hscope : scope.Prepared) : scope.Indexed := by
  induction hscope with
  | empty id _ ih => exact indexed_child id ih
  | read id text _ ih => exact indexed_parseLenient id text ih
  | resolve _ ih => exact ih.resolve
  | normalize _ ih => exact ih.normalize
  | copy _ id ih => exact ih.copy id
  | addWord _ word ih => exact ih.addWord word

section Bodies

variable {good : Expansion P → Prop}

omit [BranchWeight P] in
theorem Bodies.of_follow? (hbodies : scope.Bodies good) {target : Target} {rule : Rule P}
    (hrule : scope.follow? target = some rule) : good rule.body := by
  rw [follow?, grammarWith?] at hrule
  cases hgrammar : scope.chain.find? (·.id == target.grammar) with
  | none => simp [hgrammar] at hrule
  | some grammar =>
      rw [hgrammar] at hrule
      exact hbodies grammar (List.mem_of_find?_eq_some hgrammar) rule (List.mem_of_getElem? hrule)

omit [BranchWeight P] in
theorem Bodies.replace (hbodies : scope.Bodies good) {grammar : Grammar P}
    (hgrammar : grammar.Bodies good) : ({ scope with grammar } : Scope P).Bodies good :=
  List.forall_mem_cons.mpr ⟨hgrammar, (List.forall_mem_cons.mp hbodies).2⟩

omit [BranchWeight P] in
theorem Bodies.resolve (hbodies : scope.Bodies good)
    (hreferences : ∀ change body, good body → good (body.mapReferences change)) :
    scope.resolve.Bodies good := by
  refine hbodies.replace fun rule hrule => ?_
  obtain ⟨index, hindex, rfl⟩ := List.mem_mapIdx.mp hrule
  obtain ⟨old, hold, heq⟩ := List.mem_map.mp (List.getElem_mem hindex)
  have hbody : good old.body := hbodies scope.grammar (List.mem_cons_self ..) old hold
  dsimp only
  rw [← heq]
  exact hreferences _ _ hbody

omit [BranchWeight P] in
theorem Bodies.copy (hbodies : scope.Bodies good)
    (hreferences : ∀ change body, good body → good (body.mapReferences change))
    (id : GrammarId) : (scope.copy id).Bodies good := by
  refine hbodies.replace fun rule hrule => ?_
  obtain ⟨old, hold, rfl⟩ := List.mem_map.mp hrule
  exact hreferences _ _ (hbodies scope.grammar (List.mem_cons_self ..) old hold)

theorem Bodies.normalize (hbodies : scope.Bodies good)
    (hshares : ∀ body, good body → good (body.withProbabilities shareOf)) :
    scope.normalize.Bodies good := by
  refine hbodies.replace fun rule hrule => ?_
  obtain ⟨old, hold, rfl⟩ := List.mem_map.mp hrule
  exact hshares _ (hbodies scope.grammar (List.mem_cons_self ..) old hold)

omit [BranchWeight P] in
theorem bodies_child (id : GrammarId) {parent? : Option (Scope P)}
    (hparent : ∀ parent ∈ parent?, parent.Bodies good) : (child id parent?).Bodies good := by
  have hparents : ∀ grammar ∈ (child id parent?).parents, grammar.Bodies good := by
    cases parent? with
    | none => simp [child]
    | some parent => exact hparent parent rfl
  exact List.forall_mem_cons.mpr ⟨by simp [Grammar.Bodies, child], hparents⟩

/-- What is read has good bodies if bodies as they are read are good and stay so. -/
theorem bodies_parseLenient (id : GrammarId) (text : String) {parent? : Option (Scope P)}
    (hparent : ∀ parent ∈ parent?, parent.Bodies good)
    (hwritten : ∀ body, Written body → good body)
    (hreferences : ∀ change body, good body → good (body.mapReferences change))
    (hshares : ∀ body, good body → good (body.withProbabilities shareOf)) :
    (parseLenient id text parent?).1.Bodies good := by
  have hempty : (child id parent?).grammar.Bodies Written := fun rule hrule => nomatch hrule
  have hdraft : (Draft.ofText (child id parent?).grammar text.toList).grammar.Bodies good :=
    fun rule hrule => hwritten _ (Draft.written_ofText hempty text.toList rule hrule)
  exact (((bodies_child id hparent).replace hdraft).resolve hreferences).normalize hshares

/-- All bodies of a scope are good if those that are read are, and stay so when changed. -/
theorem Prepared.bodies (hscope : scope.Prepared) (hwritten : ∀ body, Written body → good body)
    (hreferences : ∀ change body, good body → good (body.mapReferences change))
    (hshares : ∀ body, good body → good (body.withProbabilities shareOf)) :
    scope.Bodies good := by
  induction hscope with
  | empty id _ ih => exact bodies_child id ih
  | read id text _ ih => exact bodies_parseLenient id text ih hwritten hreferences hshares
  | resolve _ ih => exact ih.resolve hreferences
  | normalize _ ih => exact ih.normalize hshares
  | copy _ id ih => exact ih.copy hreferences id
  | @addWord scope _ word ih => exact ih.replace (ih scope.grammar (List.mem_cons_self ..))

end Bodies

end Scope

end SpeechGrammar
