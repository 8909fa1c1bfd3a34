import SpeechGrammar.Proofs.Grammar.Lookup
import SpeechGrammar.Proofs.ExactProbability
import SpeechGrammar.Proofs.Source.Document

/-!
# Which texts are read

A text is read without errors exactly if it is a grammar text that defines no
rule twice, whatever stands in its mark.  So a text whose mark holds nothing but
a version is read exactly if all of it is as it should be.  Elsewhere the mark
may hold rules: if its semicolon is missing, it goes on to that of the first
rule, and the rule is lost without an error.
-/

namespace SpeechGrammar

namespace Source

variable {P : Type} [BranchWeight P]

theorem IsVersion.isBlank_or_isBareCharacter {inside : List Char} (hversion : IsVersion inside)
    (hslash : '/' ∉ inside) :
    ∀ char ∈ inside, Text.isBlank char = true ∨ isBareCharacter char = true := by
  have hgap : ∀ {gap : List Char}, IsGap gap → '/' ∉ gap →
      ∀ char ∈ gap, Text.isBlank char = true ∨ isBareCharacter char = true :=
    fun hgap hslash char hchar => .inl (hgap.isBlank_of_not_mem hslash char hchar)
  have hwords : ∀ {count : Nat} {rest : List Char}, AreWords count rest → '/' ∉ rest →
      ∀ char ∈ rest, Text.isBlank char = true ∨ isBareCharacter char = true := by
    intro count rest hwords
    induction hwords with
    | nil hlast => exact hgap hlast
    | cons hfirst _ _ hbare _ ih =>
        rw [List.forall_mem_append, List.forall_mem_append, List.mem_append, List.mem_append,
          not_or, not_or]
        rintro ⟨hslash, -, hrest⟩
        exact ⟨hgap hfirst hslash, fun char hchar => .inr (hbare char hchar), ih hrest⟩
  obtain ⟨gap, rest, count, hfirst, -, hrest, -, rfl⟩ := hversion
  rw [List.mem_append, List.mem_append, not_or, not_or] at hslash
  rw [List.forall_mem_append, List.forall_mem_append]
  exact ⟨hgap hfirst hslash.1, List.all_iff_forall_prop.mp (by decide), hwords hrest hslash.2.2⟩

/-- What stands between the mark at the front of a text and the next semicolon. -/
def insideOfMark? (text : List Char) : Option (List Char) :=
  (dropStart? "#JSGF".toList (skipBlanks text)).bind fun marked =>
    (Text.cutFirst? ';' marked).map Prod.fst

theorem insideOfMark?_append {gap inside : List Char} (hgap : IsGap gap) (hinside : ';' ∉ inside)
    (rest : List Char) :
    insideOfMark? (gap ++ ("#JSGF".toList ++ (inside ++ ';' :: rest))) = some inside := by
  rw [insideOfMark?, hgap.skipBlanks_append, skipBlanks_mark, dropStart?_append, Option.bind_some,
    Text.cutFirst?_append hinside]
  rfl

/-- What stands in the mark of a grammar text may stand there. -/
theorem IsGrammarText.isInside {isInside : List Char → Prop} {header : Header}
    {rules : List (Head × Expansion P)} {text : List Char}
    (htext : IsGrammarText isInside header rules text) :
    ∀ inside ∈ insideOfMark? text, isInside inside := by
  obtain ⟨unmarked, unnamed, rest, hmark, hname, himports, hrules⟩ := htext
  cases hmark with
  | absent =>
      have hline := himports.startsLine hrules.startsRule
      rw [insideOfMark?, dropStart?_mark_eq_none (hname.exists_nameDeclaration hline).1]
      exact fun _ hinside => nomatch hinside
  | present hgap hinside hsemicolon =>
      rw [insideOfMark?_append hgap hsemicolon]
      rintro _ ⟨⟩
      exact hinside

/-- What may stand in a mark may be narrowed to what does. -/
theorem IsGrammarText.imp {isInside isOther : List Char → Prop} {header : Header}
    {rules : List (Head × Expansion P)} {text : List Char}
    (htext : IsGrammarText isInside header rules text)
    (himp : ∀ inside ∈ insideOfMark? text, isInside inside → isOther inside) :
    IsGrammarText isOther header rules text := by
  obtain ⟨unmarked, unnamed, rest, hmark, hrest⟩ := htext
  refine ⟨unmarked, unnamed, rest, ?_, hrest⟩
  cases hmark with
  | absent => exact .absent text
  | present hgap hinside hsemicolon =>
      exact .present hgap (himp _ (insideOfMark?_append hgap hsemicolon _) hinside) hsemicolon _

end Source

variable {P : Type} [BranchWeight P]

namespace Draft

open Source (IsGrammarText IsVersion insideOfMark?)

/-- A text that is read without errors is a grammar text, whatever is in its mark. -/
theorem ofText_eq_iff {empty grammar : Grammar P} (hrules : empty.rules = [])
    (hbyName : empty.byName = ∅) {text : List Char} :
    ofText empty text = ⟨grammar, []⟩ ↔ ∃ header rules,
      IsGrammarText (fun _ => True) header rules text ∧ (rules.map (·.1.name)).Nodup ∧
        grammar = (rules.map Rule.ofSource).foldl Grammar.push
          { empty with name? := header.name?, imports := header.imports } := by
  have hnames : empty.ruleNames = [] := by rw [Grammar.ruleNames, hrules, List.map_nil]
  have hindexed (name? : Option String) (imports : List String) :
      ({ empty with name?, imports } : Grammar P).Indexed :=
    Grammar.indexed_of_rules_eq_nil hrules hbyName
  have hstart : ∀ (header : Source.Header) (rules : List (Source.Head × Expansion P)) list,
      List.Forall₂ Source.Statement.Reads list rules → (rules.map (·.1.name)).Nodup →
        list.foldl (Draft.take text)
          ⟨{ empty with name? := header.name?, imports := header.imports }, []⟩ =
        ⟨(rules.map Rule.ofSource).foldl Grammar.push
          { empty with name? := header.name?, imports := header.imports }, []⟩ := by
    intro header rules list hreads hnodup
    refine foldl_take_eq hreads (hindexed _ _) ?_
    change (empty.ruleNames ++ _).Nodup
    rwa [hnames, List.nil_append]
  constructor
  · intro hread
    unfold ofText at hread
    split at hread
    · cases congrArg Draft.errors hread
    · rename_i document hdocument
      obtain ⟨header, list⟩ := document
      have herrors := congrArg Draft.errors hread
      obtain ⟨-, rules, hreads, hnodup⟩ := exists_reads_of_errors_eq_nil (hindexed _ _) herrors
      have hnodup : (rules.map (·.1.name)).Nodup := by
        change (empty.ruleNames ++ _).Nodup at hnodup
        rwa [hnames, List.nil_append] at hnodup
      rw [hstart header rules list hreads hnodup] at hread
      exact ⟨header, rules, Source.exists_document_iff.mp ⟨list, hdocument, hreads⟩, hnodup,
        (congrArg Draft.grammar hread).symm⟩
  · rintro ⟨header, rules, htext, hnodup, rfl⟩
    obtain ⟨list, hdocument, hreads⟩ := Source.exists_document_iff.mpr htext
    rw [ofText, hdocument]
    exact hstart header rules list hreads hnodup

end Draft

namespace Scope

open Source (IsGrammarText IsVersion insideOfMark?)

/-- The scope that what is said in a grammar text stands for. -/
def ofSource (id : GrammarId) (parent? : Option (Scope P)) (header : Source.Header)
    (rules : List (Source.Head × Expansion P)) : Scope P :=
  ({ child id parent? with
    grammar := (rules.map Rule.ofSource).foldl Grammar.push
      { id, name? := header.name?, imports := header.imports } } : Scope P).resolve.normalize

/-- A text is read if it is a grammar text in which no rule is defined twice. -/
theorem parse_eq_ok_iff_isGrammarText {id : GrammarId} {text : String}
    {parent? : Option (Scope P)} {scope : Scope P} :
    parse id text parent? = .ok scope ↔ ∃ header rules,
      IsGrammarText (fun _ => True) header rules text.toList ∧ (rules.map (·.1.name)).Nodup ∧
        scope = ofSource id parent? header rules := by
  rw [parse_eq_ok_iff]
  constructor
  · intro hread
    obtain ⟨hscope, herrors⟩ := Prod.mk.inj hread
    have hdraft : Draft.ofText (child id parent?).grammar text.toList =
        ⟨(Draft.ofText (child id parent?).grammar text.toList).grammar, []⟩ :=
      congrArg (Draft.mk (Draft.ofText (child id parent?).grammar text.toList).grammar) herrors
    obtain ⟨header, rules, htext, hnodup, hgrammar⟩ := (Draft.ofText_eq_iff rfl rfl).mp hdraft
    refine ⟨header, rules, htext, hnodup, ?_⟩
    rw [← hscope, hgrammar]
    rfl
  · rintro ⟨header, rules, htext, hnodup, rfl⟩
    have hdraft : Draft.ofText (child id parent?).grammar text.toList = ⟨_, []⟩ :=
      (Draft.ofText_eq_iff rfl rfl).mpr ⟨header, rules, htext, hnodup, rfl⟩
    rw [parseLenient, hdraft]
    rfl

/--
A text in which the mark, if there is one, holds nothing but a version is read exactly if it is
a header and rules as they should be: in the header stand a mark that holds a version, the name
of the grammar and imports, each of them or not, and all that follows is rules.
-/
theorem parse_eq_ok_iff_of_version {text : String}
    (hmark : ∀ inside ∈ insideOfMark? text.toList, IsVersion inside) (id : GrammarId)
    (parent? : Option (Scope P)) (scope : Scope P) :
    parse id text parent? = .ok scope ↔ ∃ header rules,
      IsGrammarText IsVersion header rules text.toList ∧ (rules.map (·.1.name)).Nodup ∧
        scope = ofSource id parent? header rules := by
  rw [parse_eq_ok_iff_isGrammarText]
  refine exists_congr fun header => exists_congr fun rules => and_congr_left fun _ => ?_
  exact ⟨fun htext => htext.imp fun inside hinside _ => hmark inside hinside,
    fun htext => htext.imp fun _ _ _ => trivial⟩

def greetingText : String :=
  "#JSGF V1.0 UTF-8 en; grammar greetings; import <names.*>; public <hello> = hello [<name>];"

/--
The mark of `greetingText` is well formed, and reading the text gives the scope of what it spells.
-/
theorem greeting_read :
    (∀ inside ∈ insideOfMark? greetingText.toList, IsVersion inside) ∧
      ∃ scope : Scope ℚ, parse ⟨0⟩ greetingText none = .ok scope ∧
        scope.grammar.ruleNames = ["hello"] ∧ ∃ header rules,
          IsGrammarText IsVersion header rules greetingText.toList ∧
            (rules.map (·.1.name)).Nodup ∧ scope = ofSource ⟨0⟩ none header rules := by
  have hinside : insideOfMark? greetingText.toList = some " V1.0 UTF-8 en".toList := by
    decide +kernel
  have hversion : IsVersion " V1.0 UTF-8 en".toList := by
    refine ⟨[' '], " UTF-8 en".toList, 2, .blank rfl .nil, by decide, ?_, le_rfl, by decide⟩
    have hencoding : ∀ char ∈ "UTF-8".toList, Source.isBareCharacter char = true :=
      List.all_iff_forall_prop.mp (by decide)
    have hlocale : ∀ char ∈ "en".toList, Source.isBareCharacter char = true :=
      List.all_iff_forall_prop.mp (by decide)
    exact @Source.AreWords.cons 1 [' '] "UTF-8".toList " en".toList (.blank rfl .nil) (by decide)
      (by decide) hencoding <|
        @Source.AreWords.cons 0 [' '] "en".toList [] (.blank rfl .nil) (by decide) (by decide)
          hlocale (.nil .nil)
  have hmark : ∀ inside ∈ insideOfMark? greetingText.toList, IsVersion inside := by
    rw [hinside]
    rintro _ ⟨⟩
    exact hversion
  have hnames : ((parse ⟨0⟩ greetingText none : Except _ (Scope ℚ)).map
      (·.grammar.ruleNames)).toOption = some ["hello"] := by
    decide +kernel
  obtain ⟨scope, hread, hnames⟩ := exists_of_toOption_map_eq_some hnames
  exact ⟨hmark, scope, hread, hnames, (parse_eq_ok_iff_of_version hmark ⟨0⟩ none scope).mp hread⟩

def unendedMarkText : String := "#JSGF V1.0\npublic <a> = x; public <b> = y;"

/--
Reading `unendedMarkText` gives the rule `<b>` only, and the text is no grammar text with a well-
formed mark.
-/
theorem unendedMark_read : (∃ scope : Scope ℚ, parse ⟨0⟩ unendedMarkText none = .ok scope ∧
    scope.grammar.ruleNames = ["b"]) ∧
      ¬∃ header rules, IsGrammarText (P := ℚ) IsVersion header rules unendedMarkText.toList := by
  have hinside : insideOfMark? unendedMarkText.toList = some " V1.0\npublic <a> = x".toList := by
    decide +kernel
  have hnames : ((parse ⟨0⟩ unendedMarkText none : Except _ (Scope ℚ)).map
      (·.grammar.ruleNames)).toOption = some ["b"] := by
    decide +kernel
  refine ⟨exists_of_toOption_map_eq_some hnames, ?_⟩
  rintro ⟨header, rules, htext⟩
  have hversion : IsVersion " V1.0\npublic <a> = x".toList := htext.isInside _ hinside
  have hbracket := hversion.isBlank_or_isBareCharacter (by decide) '<' (by decide)
  revert hbracket
  decide

end Scope

end SpeechGrammar
