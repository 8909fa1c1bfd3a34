import SpeechGrammar.Proofs.Grammar.FromText
import SpeechGrammar.Proofs.Printing.Body

/-!
# Printed grammars are read back

A grammar is printed as a header and one line for each rule.  Reading the text
gives the same header and one good definition for each rule, so a grammar that
was read from a text without errors is read again as it was.
-/

namespace SpeechGrammar

namespace Source

/-- Texts that start like the printed declarations and rules behind the name of a grammar. -/
def StartsLine (text : List Char) : Prop := ∀ char ∈ text.head?, char ∈ ['i', 'p', '<']

def StartsRule (text : List Char) : Prop := ∀ char ∈ text.head?, char ∈ ['p', '<']

theorem StartsRule.startsLine {text : List Char} (hstarts : StartsRule text) : StartsLine text :=
  fun char hchar => List.mem_cons_of_mem 'i' (hstarts char hchar)

theorem StartsLine.skipBlanks_eq {text : List Char} (hstarts : StartsLine text) :
    skipBlanks text = text := by
  have hplain : ∀ char ∈ ['i', 'p', '<'], Text.isBlank char = false ∧ char ≠ '/' :=
    List.all_iff_forall_prop.mp (by decide)
  cases text with
  | nil => rfl
  | cons char rest =>
      obtain ⟨hsolid, hslash⟩ := hplain char (hstarts char rfl)
      exact skipBlanks_cons hsolid hslash rest

theorem StartsLine.skipBlanks_newline {text : List Char} (hstarts : StartsLine text) :
    skipBlanks ('\n' :: text) = text :=
  (skipBlanks_of_isBlank rfl text).trans hstarts.skipBlanks_eq

theorem keyword?_eq_none {first : Char} {text : List Char}
    (hfirst : ∀ char ∈ text.head?, char ≠ first) (word : List Char) :
    keyword? (first :: word) text = none := by
  cases text with
  | nil => rfl
  | cons char rest =>
      have hdrop : dropStart? (first :: word) (char :: rest) = none :=
        if_neg (hfirst char rfl)
      rw [keyword?, hdrop]

theorem StartsLine.keyword?_grammar {text : List Char} (hstarts : StartsLine text) :
    keyword? "grammar".toList text = none := by
  have hspelled : "grammar".toList = 'g' :: "rammar".toList := by decide
  have hother : ∀ char ∈ ['i', 'p', '<'], char ≠ 'g' := List.all_iff_forall_prop.mp (by decide)
  rw [hspelled]
  exact keyword?_eq_none (fun char hchar => hother char (hstarts char hchar)) _

theorem StartsRule.keyword?_import {text : List Char} (hstarts : StartsRule text) :
    keyword? "import".toList text = none := by
  have hspelled : "import".toList = 'i' :: "mport".toList := by decide
  have hother : ∀ char ∈ ['p', '<'], char ≠ 'i' := List.all_iff_forall_prop.mp (by decide)
  rw [hspelled]
  exact keyword?_eq_none (fun char hchar => hother char (hstarts char hchar)) _

theorem startsLine_printImports (imports : List String) {rest : List Char}
    (hrest : StartsRule rest) : StartsLine (Grammar.printImports imports ++ rest) := by
  have hspelled : "import".toList = 'i' :: "mport".toList := by decide
  cases imports with
  | nil => exact hrest.startsLine
  | cons name imports =>
      rw [Grammar.printImports_cons, hspelled]
      rintro char ⟨⟩
      decide

theorem startsRule_printRules {P : Type} [BranchWeight P] (rules : List (Rule P)) :
    StartsRule (Grammar.printRules rules) := by
  have hspelled : "public".toList = 'p' :: "ublic".toList := by decide
  cases rules with
  | nil => exact fun _ hchar => nomatch hchar
  | cons rule rules =>
      rw [Grammar.printRules_cons, Rule.print_eq]
      cases rule.isPublic with
      | true =>
          rw [if_pos rfl, hspelled]
          rintro char ⟨⟩
          decide
      | false =>
          rintro char ⟨⟩
          decide

/-! ## Headers -/

theorem isBlank_of_isGrammarNameCharacter {char : Char}
    (hname : isGrammarNameCharacter char = true) : Text.isBlank char = false := by
  simp only [isGrammarNameCharacter, Bool.or_eq_true, Bool.and_eq_true, beq_iff_eq] at hname
  rcases hname with (((⟨-, halphanum⟩ | rfl) | rfl) | rfl) | rfl
  · exact isBlank_of_isAlphanum halphanum
  all_goals rfl

theorem skipMark_append (rest : List Char) :
    skipMark ("#JSGF".toList ++ (" V1.0".toList ++ ';' :: rest)) = .ok rest := by
  rw [skipMark, dropStart?_append]
  dsimp only
  rw [Text.cutFirst?_append (by decide)]

/-- The declaration of a grammar's name is read back. -/
theorem exists_nameDeclaration_print {name? : Option String}
    (hname : ∀ name ∈ name?, IsGrammarName name.toList) {rest : List Char}
    (hrest : StartsLine rest) :
    ∃ after, nameDeclaration (skipBlanks (Grammar.printGrammarName name? ++ rest)) =
        .ok (name?, after) ∧ skipBlanks after = rest ∧ rest.length ≤ after.length := by
  cases name? with
  | none =>
      refine ⟨rest, ?_, hrest.skipBlanks_eq, Nat.le_refl _⟩
      change nameDeclaration (skipBlanks rest) = _
      rw [hrest.skipBlanks_eq, nameDeclaration, hrest.keyword?_grammar]
  | some name =>
      refine ⟨'\n' :: rest, ?_, hrest.skipBlanks_newline, Nat.le_succ _⟩
      obtain ⟨hne, hchars⟩ := hname name rfl
      have hspelled : "grammar".toList = 'g' :: "rammar".toList := by decide
      have hsolid : skipBlanks ("grammar".toList ++ ' ' :: (name.toList ++ ';' :: '\n' :: rest)) =
          "grammar".toList ++ ' ' :: (name.toList ++ ';' :: '\n' :: rest) := by
        rw [hspelled]
        exact skipBlanks_cons rfl (by decide) _
      have hstart : skipBlanks (name.toList ++ ';' :: '\n' :: rest) =
          name.toList ++ ';' :: '\n' :: rest := by
        obtain ⟨char, others, heq⟩ := List.exists_cons_of_ne_nil hne
        have hchar := hchars char (by simp [heq])
        rw [heq]
        refine skipBlanks_cons (isBlank_of_isGrammarNameCharacter hchar) ?_ _
        rintro rfl
        cases hchar
      have hrun : grammarName (name.toList ++ ';' :: '\n' :: rest) =
          .ok (name.toList, ';' :: '\n' :: rest) :=
        run_append _ hne hchars (by rintro char ⟨⟩; rfl)
      rw [Grammar.printGrammarName_some, List.append_assoc, List.cons_append, List.append_assoc,
        List.cons_append, List.singleton_append, hsolid, nameDeclaration, keyword?_append _ rfl]
      dsimp only
      rw [skipBlanks_of_isBlank rfl, hstart, hrun]
      dsimp only [bind, Except.bind]
      rw [skipBlanks_cons rfl (by decide), character_cons]
      dsimp only [pure, Except.pure]
      rw [String.ofList_toList]

theorem importDeclarations_print {imports : List String}
    (himports : ∀ name ∈ imports, IsName name.toList) {rest : List Char}
    (hrest : StartsRule rest) {allowance : Nat} (hallowance : imports.length < allowance)
    {source : List Char} (hsource : skipBlanks source = Grammar.printImports imports ++ rest) :
    importDeclarations allowance source = .ok (imports, rest) := by
  obtain ⟨allowance, rfl⟩ := Nat.exists_eq_succ_of_ne_zero (n := allowance) (by omega)
  induction imports generalizing allowance source with
  | nil =>
      have hskip : skipBlanks source = rest := hsource
      rw [importDeclarations, hskip]
      dsimp only
      rw [hrest.keyword?_import]
  | cons name imports ih =>
      obtain ⟨hname, hothers⟩ := List.forall_mem_cons.mp himports
      rw [List.length_cons] at hallowance
      obtain ⟨allowance, rfl⟩ := Nat.exists_eq_succ_of_ne_zero (n := allowance) (by omega)
      have hbracket : skipBlanks (Expansion.printName name ++
          ';' :: '\n' :: (Grammar.printImports imports ++ rest)) = Expansion.printName name ++
            ';' :: '\n' :: (Grammar.printImports imports ++ rest) :=
        skipBlanks_cons rfl (by decide) _
      rw [Grammar.printImports_cons, List.append_assoc, List.cons_append, List.append_assoc,
        List.cons_append, List.cons_append] at hsource
      rw [importDeclarations, hsource]
      dsimp only
      rw [keyword?_append _ rfl]
      dsimp only
      rw [skipBlanks_of_isBlank rfl, hbracket, bracketedName_printName hname]
      dsimp only [bind, Except.bind]
      rw [skipBlanks_cons rfl (by decide), character_cons]
      dsimp only
      rw [ih hothers (startsLine_printImports imports hrest).skipBlanks_newline allowance
        (by omega)]
      dsimp only [pure, Except.pure]
      rw [String.ofList_toList]

theorem length_le_printImports (imports : List String) :
    imports.length ≤ (Grammar.printImports imports).length := by
  induction imports with
  | nil => exact Nat.le_refl _
  | cons name imports ih =>
      rw [Grammar.printImports_cons]
      simp only [List.length_cons, List.length_append]
      omega

variable {P : Type} [BranchWeight P]

/-- The header of a printed grammar is read back. -/
theorem header_print {grammar : Grammar P}
    (hheader : Header.IsWritten ⟨grammar.name?, grammar.imports⟩) :
    header grammar.print =
      .ok (⟨grammar.name?, grammar.imports⟩, Grammar.printRules grammar.rules) := by
  have hrules := startsRule_printRules grammar.rules
  have hlines := startsLine_printImports grammar.imports hrules
  obtain ⟨hgrammarName, hnames⟩ := hheader
  obtain ⟨after, hname, hskip, hlength⟩ := exists_nameDeclaration_print hgrammarName hlines
  have hcount := length_le_printImports grammar.imports
  have himports : importDeclarations (after.length + 1) after =
      .ok (grammar.imports, Grammar.printRules grammar.rules) := by
    rw [List.length_append] at hlength
    exact importDeclarations_print hnames hrules
      (Nat.lt_succ_of_le (hcount.trans ((Nat.le_add_right _ _).trans hlength))) hskip
  have hspelled : "#JSGF".toList = '#' :: "JSGF".toList := by decide
  have hstart : skipBlanks grammar.print = grammar.print := by
    rw [Grammar.print_eq, hspelled]
    exact skipBlanks_cons rfl (by decide) _
  rw [header, hstart, Grammar.print_eq, skipMark_append]
  dsimp only [bind, Except.bind]
  rw [skipBlanks_of_isBlank rfl, hname]
  dsimp only
  rw [himports]
  rfl

/-! ## Rules -/

theorem head_of_keyword? {text : List Char} {after? : Option (List Char)}
    (hkeyword : keyword? "public".toList text = after?) {name : String}
    (hname : IsName name.toList) (hfree : name ≠ "NULL" ∧ name ≠ "VOID") {rest : List Char}
    (hskip : skipBlanks (after?.getD text) = Expansion.printName name ++ ' ' :: '=' :: rest) :
    head text = .ok (⟨after?.isSome, name⟩, rest) := by
  rw [head, hkeyword]
  dsimp only
  rw [hskip, bracketedName_printName hname]
  dsimp only [bind, Except.bind]
  rw [String.ofList_toList, if_neg (not_or.mpr hfree), skipBlanks_of_isBlank rfl,
    skipBlanks_cons rfl (by decide), character_cons]
  rfl

theorem head_print {rule : Rule P} (hhead : Head.IsWritten ⟨rule.isPublic, rule.name⟩)
    (rest : List Char) :
    head (rule.print ++ rest) =
      .ok (⟨rule.isPublic, rule.name⟩, ' ' :: (rule.body.print ++ ';' :: rest)) := by
  obtain ⟨hname, hfree⟩ := hhead
  have hbracket : ∀ rest, skipBlanks (Expansion.printName rule.name ++ rest) =
      Expansion.printName rule.name ++ rest := fun rest => skipBlanks_cons rfl (by decide) _
  rw [Rule.print_eq, List.append_assoc, List.append_assoc, List.cons_append, List.cons_append,
    List.cons_append, List.append_assoc, List.singleton_append]
  cases rule.isPublic with
  | true =>
      rw [if_pos rfl, List.append_assoc, List.singleton_append]
      have hkeyword := keyword?_append "public".toList
        (show Text.isWordCharacter ' ' = false from rfl)
        (Expansion.printName rule.name ++ ' ' :: '=' :: ' ' :: (rule.body.print ++ ';' :: rest))
      exact head_of_keyword? hkeyword hname hfree ((skipBlanks_of_isBlank rfl _).trans (hbracket _))
  | false =>
      rw [if_neg Bool.false_ne_true, List.nil_append]
      have hspelled : "public".toList = 'p' :: "ublic".toList := by decide
      have hkeyword : keyword? "public".toList (Expansion.printName rule.name ++
          ' ' :: '=' :: ' ' :: (rule.body.print ++ ';' :: rest)) = none := by
        rw [hspelled]
        exact keyword?_eq_none (by rintro char ⟨⟩; decide) _
      exact head_of_keyword? hkeyword hname hfree (hbracket _)

def printedStatements : List (Rule P) → List (Statement P)
  | [] => []
  | rule :: rules =>
      .definition (Grammar.printRules (rule :: rules)).length ⟨rule.isPublic, rule.name⟩
        (.ok rule.body) :: printedStatements rules

/-- Every printed rule is read back as a good definition. -/
theorem statements_print {rules : List (Rule P)}
    (hrules : ∀ rule ∈ rules,
      Head.IsWritten ⟨rule.isPublic, rule.name⟩ ∧ Legible rule.body) {allowance : Nat}
    (hallowance : rules.length < allowance) {source : List Char}
    (hsource : skipBlanks source = Grammar.printRules rules) :
    statements allowance source = printedStatements rules := by
  obtain ⟨allowance, rfl⟩ := Nat.exists_eq_succ_of_ne_zero (n := allowance) (by omega)
  induction rules generalizing allowance source with
  | nil =>
      have hskip : skipBlanks source = [] := hsource
      rw [statements, hskip]
      rfl
  | cons rule rules ih =>
      obtain ⟨⟨hhead, hlegible⟩, hothers⟩ := List.forall_mem_cons.mp hrules
      rw [List.length_cons] at hallowance
      obtain ⟨allowance, rfl⟩ := Nat.exists_eq_succ_of_ne_zero (n := allowance) (by omega)
      have hmore := ih hothers (startsRule_printRules rules).startsLine.skipBlanks_newline
        allowance (by omega)
      have hne : (Grammar.printRules (rule :: rules)).isEmpty = false := by
        rw [Grammar.printRules_cons]
        simp
      have hhead := head_print hhead ('\n' :: Grammar.printRules rules)
      rw [← Grammar.printRules_cons] at hhead
      rw [statements, hsource, hne, hhead]
      dsimp only
      rw [body_print hlegible]
      dsimp only
      rw [hmore]
      rfl

theorem length_le_printRules (rules : List (Rule P)) :
    rules.length ≤ (Grammar.printRules rules).length := by
  induction rules with
  | nil => exact Nat.le_refl _
  | cons rule rules ih =>
      rw [Grammar.printRules_cons]
      simp only [List.length_cons, List.length_append]
      omega

end Source

/-! ## Grammars -/

variable {P : Type} [BranchWeight P]

namespace Draft

/-- Good definitions of rules with names of their own are taken up one by one. -/
theorem foldl_take_print {rules : List (Rule P)} (hrules : ∀ rule ∈ rules, rule.IsFromText)
    (text : List Char) {grammar : Grammar P} (hindexed : grammar.Indexed)
    (hnodup : (grammar.ruleNames ++ rules.map (·.name)).Nodup) :
    (Source.printedStatements rules).foldl (Draft.take text) ⟨grammar, []⟩ =
      ⟨rules.foldl Grammar.push grammar, []⟩ := by
  have hreads : List.Forall₂ Source.Statement.Reads (Source.printedStatements rules)
      (rules.map fun rule => (⟨rule.isPublic, rule.name⟩, rule.body)) := by
    clear hrules hnodup
    induction rules with
    | nil => exact .nil
    | cons rule rules ih => exact .cons ⟨_, rfl⟩ ih
  have hrules : (rules.map fun rule => (⟨rule.isPublic, rule.name⟩, rule.body)).map
      Rule.ofSource = rules := by
    rw [List.map_map]
    refine (List.map_congr_left fun rule hrule => ?_).trans (List.map_id rules)
    obtain ⟨-, -, hunresolved, hdefect, hrecursive⟩ := hrules rule hrule
    rw [Function.comp_apply, Rule.ofSource, ← hunresolved, ← hdefect, ← hrecursive]
    rfl
  rw [foldl_take_eq hreads hindexed (by simpa [Function.comp_def] using hnodup), hrules]

/-- A grammar that is read without errors, and printed so that it can be read, is read again. -/
theorem ofText_print {grammar : Grammar P} (hgrammar : grammar.IsFromText)
    (hlegible : grammar.Bodies Source.Legible) (id : GrammarId) :
    ofText { id } grammar.print = ⟨{ grammar with id }, []⟩ := by
  have hrules : ∀ rule ∈ grammar.rules,
      Source.Head.IsWritten ⟨rule.isPublic, rule.name⟩ ∧ Source.Legible rule.body :=
    fun rule hrule => ⟨(hgrammar.rules rule hrule).head, hlegible rule hrule⟩
  have hstatements := Source.statements_print hrules
    (Nat.lt_succ_of_le (Source.length_le_printRules grammar.rules))
    (Source.startsRule_printRules grammar.rules).startsLine.skipBlanks_eq
  have hdocument : Source.document grammar.print =
      .ok ⟨⟨grammar.name?, grammar.imports⟩, Source.printedStatements grammar.rules⟩ := by
    rw [Source.document, Source.header_print hgrammar.header]
    dsimp only [bind, Except.bind]
    rw [hstatements]
    rfl
  rw [ofText, hdocument]
  dsimp only
  have hempty : ({ id, name? := grammar.name?, imports := grammar.imports } :
      Grammar P).Indexed := Grammar.indexed_of_rules_eq_nil rfl rfl
  rw [foldl_take_print hgrammar.rules _ hempty hgrammar.indexed.nodup]
  have hindexed : ({ grammar with id } : Grammar P).Indexed := hgrammar.indexed.congr rfl rfl
  rw [← hindexed.foldl_push_rules, ← hgrammar.vocabulary_eq]

end Draft

end SpeechGrammar
