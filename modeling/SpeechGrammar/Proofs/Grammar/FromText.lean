import SpeechGrammar.Proofs.Grammar.NameIndex
import SpeechGrammar.Proofs.Grammar.Prepared

/-!
# Grammars read from texts without errors

A text without syntax errors is read rule by rule: every rule has a name that
may stand between angle brackets and is taken once, its body is of the kind
that is read, and nothing is known yet of what its references mean.
-/

namespace SpeechGrammar

open Source (Failure Taken Yields Written IsName)

namespace Source

def IsGrammarName (name : List Char) : Prop :=
  name ≠ [] ∧ ∀ char ∈ name, isGrammarNameCharacter char = true

/-- Headers that are read from a text. -/
structure Header.IsWritten (header : Header) : Prop where
  name : ∀ name ∈ header.name?, IsGrammarName name.toList
  imports : ∀ name ∈ header.imports, IsName name.toList

theorem yields_nameDeclaration (text : List Char) :
    Yields (fun name? : Option String => ∀ name ∈ name?, IsGrammarName name.toList)
      (nameDeclaration text) := by
  unfold nameDeclaration
  split
  · exact Yields.ok (fun _ hname => nomatch hname) _
  · refine (yields_run _ _ _).bind fun name rest hname => Yields.bind_rest fun rest => ?_
    refine Yields.ok (fun found hfound => ?_) rest
    obtain rfl := Option.some.inj hfound
    rw [String.toList_ofList]
    exact hname

theorem yields_importDeclarations (allowance : Nat) (text : List Char) :
    Yields (fun names : List String => ∀ name ∈ names, IsName name.toList)
      (importDeclarations allowance text) := by
  induction allowance generalizing text with
  | zero => exact Yields.ok (fun _ hname => nomatch hname) _
  | succ allowance ih =>
      rw [importDeclarations]
      dsimp only
      split
      · exact Yields.ok (fun _ hname => nomatch hname) _
      · refine (yields_bracketedName _).bind fun name rest hname => Yields.bind_rest fun rest => ?_
        refine (ih rest).bind fun others rest hothers => Yields.ok ?_ rest
        exact List.forall_mem_cons.mpr ⟨by rwa [String.toList_ofList], hothers⟩

theorem yields_header (text : List Char) : Yields Header.IsWritten (header text) := by
  unfold header
  refine Yields.bind_rest fun rest => ?_
  refine (yields_nameDeclaration _).bind fun name? rest hname => ?_
  exact (yields_importDeclarations _ rest).bind fun imports rest himports =>
    Yields.ok ⟨hname, himports⟩ rest

def Statement.Reads {P : Type} (statement : Statement P) (rule : Head × Expansion P) : Prop :=
  ∃ remaining, statement = .definition remaining rule.1 (.ok rule.2)

end Source

variable {P : Type} [BranchWeight P]

/-- A rule as it comes into a grammar. -/
def Rule.ofSource (source : Source.Head × Expansion P) : Rule P :=
  ⟨source.1.name, source.1.isPublic, source.2, [], none, false⟩

structure Rule.IsFromText (rule : Rule P) : Prop where
  head : Source.Head.IsWritten ⟨rule.isPublic, rule.name⟩
  written : Written rule.body
  unresolved_eq : rule.unresolved = []
  defect?_eq : rule.defect? = none
  isRecursive_eq : rule.isRecursive = false

structure Grammar.IsFromText (grammar : Grammar P) : Prop where
  header : Source.Header.IsWritten ⟨grammar.name?, grammar.imports⟩
  rules : ∀ rule ∈ grammar.rules, rule.IsFromText
  indexed : grammar.Indexed
  vocabulary_eq : grammar.vocabulary = .empty

theorem Grammar.IsFromText.add? {grammar more : Grammar P} (hgrammar : grammar.IsFromText)
    {rule : Rule P} (hrule : rule.IsFromText) (hadd : grammar.add? rule = some more) :
    more.IsFromText := by
  have hindexed := hgrammar.indexed.add? hadd
  obtain rfl := Grammar.eq_push_of_add? hadd
  refine ⟨hgrammar.header, List.forall_mem_append.mpr ⟨hgrammar.rules, ?_⟩, hindexed,
    hgrammar.vocabulary_eq⟩
  exact List.forall_mem_singleton.mpr hrule

namespace Draft

variable {draft : Draft P} {text : List Char}

omit [BranchWeight P] in
/-- A statement that leaves no error is a readable definition of a new rule. -/
theorem take_eq_of_errors_eq_nil {statement : Source.Statement P}
    (herrors : (draft.take text statement).errors = []) :
    draft.errors = [] ∧ ∃ remaining head expansion grammar,
      statement = .definition remaining head (.ok expansion) ∧
        draft.grammar.add? ⟨head.name, head.isPublic, expansion, [], none, false⟩ =
          some grammar ∧
        (draft.take text statement).grammar = grammar := by
  match statement with
  | .malformed _ => simp [take] at herrors
  | .definition _ _ (.error _) => simp [take] at herrors
  | .definition remaining head (.ok expansion) =>
      rw [take, define] at herrors ⊢
      split at herrors
      · rename_i grammar hadd
        exact ⟨herrors, remaining, head, expansion, grammar, rfl, hadd, rfl⟩
      · simp at herrors

section Fold

omit [BranchWeight P]

variable {statements : List (Source.Statement P)}

/-- Statements that have been read as rules with names of their own become these rules. -/
theorem foldl_take_eq {rules : List (Source.Head × Expansion P)}
    (hreads : List.Forall₂ Source.Statement.Reads statements rules) {grammar : Grammar P}
    (hindexed : grammar.Indexed) (hnodup : (grammar.ruleNames ++ rules.map (·.1.name)).Nodup) :
    statements.foldl (Draft.take text) ⟨grammar, []⟩ =
      ⟨(rules.map Rule.ofSource).foldl Grammar.push grammar, []⟩ := by
  induction hreads generalizing grammar with
  | nil => rfl
  | @cons statement rule statements rules hread _ ih =>
      obtain ⟨remaining, rfl⟩ := hread
      have hfree : (Rule.ofSource rule).name ∉ grammar.ruleNames := fun hmem =>
        (List.nodup_append.mp hnodup).2.2 _ hmem _ (List.mem_cons_self ..) rfl
      have htake : Draft.take text ⟨grammar, []⟩ (.definition remaining rule.1 (.ok rule.2)) =
          ⟨grammar.push (Rule.ofSource rule), []⟩ := by
        change define ⟨grammar, []⟩ (Rule.ofSource rule) _ = _
        rw [define, hindexed.add?_eq_some_iff.mpr ⟨hfree, rfl⟩]
      rw [List.foldl_cons, htake, ih (hindexed.push hfree), List.map_cons, List.foldl_cons]
      rwa [Grammar.ruleNames_push, List.append_assoc, List.singleton_append]

theorem exists_reads_of_errors_eq_nil {draft : Draft P} (hindexed : draft.grammar.Indexed)
    (herrors : (statements.foldl (Draft.take text) draft).errors = []) :
    draft.errors = [] ∧ ∃ rules, List.Forall₂ Source.Statement.Reads statements rules ∧
      (draft.grammar.ruleNames ++ rules.map (·.1.name)).Nodup := by
  induction statements generalizing draft with
  | nil => exact ⟨herrors, [], .nil, by simpa using hindexed.nodup⟩
  | cons statement statements ih =>
      have hstep := holds_take (fun {_ _ _} hindexed => hindexed.add?) hindexed text statement
      obtain ⟨hnone, rules, hreads, hnodup⟩ := ih hstep herrors
      obtain ⟨hclean, remaining, head, expansion, grammar, rfl, hadd, heq⟩ :=
        take_eq_of_errors_eq_nil hnone
      refine ⟨hclean, (head, expansion) :: rules, .cons ⟨remaining, rfl⟩ hreads, ?_⟩
      rw [heq, Grammar.eq_push_of_add? hadd, Grammar.ruleNames_push, List.append_assoc] at hnodup
      exact hnodup

end Fold

/-- What is read without errors is a grammar as it is read. -/
theorem isFromText_ofText {empty : Grammar P} (hrules : empty.rules = [])
    (hbyName : empty.byName = ∅) (hvocabulary : empty.vocabulary = .empty)
    (herrors : (ofText empty text).errors = []) :
    (ofText empty text).grammar.IsFromText := by
  have hfold : ∀ (statements : List (Source.Statement P)) (draft : Draft P),
      (∀ statement ∈ statements, statement.IsWritten) →
      (draft.errors = [] → draft.grammar.IsFromText) →
      (statements.foldl (Draft.take text) draft).errors = [] →
        (statements.foldl (Draft.take text) draft).grammar.IsFromText := by
    intro statements
    induction statements with
    | nil => exact fun draft _ hdraft => hdraft
    | cons statement statements ih =>
        intro draft hall hdraft
        obtain ⟨hhead, hrest⟩ := List.forall_mem_cons.mp hall
        refine ih _ hrest fun hnone => ?_
        obtain ⟨hclean, remaining, head, expansion, grammar, rfl, hadd, heq⟩ :=
          take_eq_of_errors_eq_nil hnone
        rw [heq]
        exact (hdraft hclean).add? ⟨hhead.1, hhead.2, rfl, rfl, rfl⟩ hadd
  unfold ofText at herrors ⊢
  split at herrors
  · cases herrors
  · rename_i document hdocument
    rw [Source.document] at hdocument
    cases hheader : Source.header text with
    | error failure =>
        rw [hheader] at hdocument
        cases hdocument
    | ok taken =>
        rw [hheader] at hdocument
        obtain rfl := Except.ok.inj hdocument
        refine hfold _ _ (fun statement => Source.isWritten_of_mem_statements) (fun _ => ?_) herrors
        refine ⟨Source.yields_header text _ _ hheader, ?_,
          Grammar.indexed_of_rules_eq_nil hrules hbyName, hvocabulary⟩
        simp [hrules]

end Draft

end SpeechGrammar
