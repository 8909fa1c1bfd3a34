import SpeechGrammar.Proofs.Grammar.Integrity

/-!
# A grammar's own rules by their own names

A name without a dot is looked up in the grammar itself before the grammars it
inherits from, so such a rule is what its name means there, whatever the others
have.  A name with a dot names a grammar too, in front of the dot.  What it
means has the last segment of the name only, and that is never the rule that is
defined by the whole name.
-/

namespace SpeechGrammar.Scope

variable {P : Type} {scope : Scope P}

/-- A name without a dot means the grammar's own rule of that name, if there is one. -/
theorem lookup?_own (hindexed : scope.grammar.Indexed) {link : Reference} {index : Nat}
    (hplain : '.' ∉ link.name.toList) (hplace : scope.grammar.ruleNames[index]? = some link.name) :
    scope.lookup? link = some ⟨scope.grammar.id, index⟩ := by
  have hqualified : link.qualified? = none := by
    rw [Reference.qualified?, Text.cutLast?_eq_none_iff.mpr hplain, Option.map_none]
  have hname : link.ruleName = link.name := by rw [Reference.ruleName, hqualified]
  have hfound : scope.grammar.targetOf? link.ruleName = some ⟨scope.grammar.id, index⟩ := by
    rw [hindexed.targetOf?_eq_some_iff, hname]
    exact ⟨rfl, hplace⟩
  have hadmits : scope.grammar.admits (link.qualified?.map Prod.fst) = true := by
    rw [hqualified, Option.map_none, Grammar.admits]
  rw [lookup?, findSome?_filter, chain, List.findSome?_cons, if_pos hadmits, hfound]

theorem isLastSegment_of_lookup?_own (hindexed : scope.grammar.Indexed)
    (hfresh : ∀ parent ∈ scope.parents, parent.id ≠ scope.grammar.id) {link : Reference}
    {index : Nat} (hlookup : scope.lookup? link = some ⟨scope.grammar.id, index⟩) :
    ∃ segment, IsLastSegment segment link.name ∧
      scope.grammar.ruleNames[index]? = some segment := by
  rw [lookup?] at hlookup
  obtain ⟨grammar, hmem, htarget⟩ := List.exists_of_findSome?_eq_some hlookup
  obtain ⟨place, hindex, heq⟩ := Option.map_eq_some_iff.mp htarget
  obtain ⟨hid, rfl⟩ := Target.mk.inj heq
  -- No other grammar of the scope has the identity of the scope's own one.
  have hown : grammar = scope.grammar := by
    rcases List.mem_cons.mp (List.mem_of_mem_filter hmem) with hown | hparent
    · exact hown
    · exact absurd hid (hfresh grammar hparent)
  rw [hown, hindexed.ruleIndex?_eq_some_iff, Reference.ruleName_eq] at hindex
  exact ⟨_, isLastSegment_iff.mpr rfl, hindex⟩

/--
Once references are bound, one with the name of a rule of the grammar itself is bound to that
rule if and only if the name has no dot.
-/
theorem target?_resolve_eq_own_iff (hindexed : scope.grammar.Indexed)
    (hfresh : ∀ parent ∈ scope.parents, parent.id ≠ scope.grammar.id) {rule : Rule P}
    (hrule : rule ∈ scope.resolve.grammar.rules) {link : Reference}
    (hlink : link ∈ rule.body.references) {index : Nat}
    (hplace : scope.grammar.ruleNames[index]? = some link.name) :
    link.target? = some ⟨scope.grammar.id, index⟩ ↔ '.' ∉ link.name.toList := by
  obtain ⟨old, -, -, hbody, -⟩ := exists_of_mem_resolve hrule
  rw [hbody, Expansion.references_mapReferences] at hlink
  obtain ⟨origin, -, rfl⟩ := List.mem_map.mp hlink
  constructor
  · intro hlookup
    obtain ⟨segment, hsegment, hname⟩ := isLastSegment_of_lookup?_own hindexed hfresh hlookup
    obtain rfl : segment = origin.name := Option.some.inj (hname.symm.trans hplace)
    exact hsegment.1
  · intro hplain
    exact lookup?_own hindexed hplain hplace

variable [BranchWeight P]

/-- What is read from a text, before its references are bound and its probabilities computed. -/
theorem exists_read_of_parse {id : GrammarId} {text : String} {parent? : Option (Scope P)}
    (hfresh : ∀ parent ∈ parent?, parent.Fresh id) (hparse : parse id text parent? = .ok scope) :
    ∃ read : Scope P, scope = read.resolve.normalize ∧ read.grammar.id = id ∧
      read.grammar.Indexed ∧ ∀ parent ∈ read.parents, parent.id ≠ id := by
  have hread := congrArg Prod.fst (parse_eq_ok_iff.mp hparse)
  have hempty : (child id parent?).grammar.Indexed := Grammar.indexed_of_rules_eq_nil rfl rfl
  refine ⟨_, hread.symm, Draft.id_ofText _ _, Draft.indexed_ofText hempty text.toList, ?_⟩
  cases parent? with
  | none => exact fun parent hparent => nomatch hparent
  | some parent => exact hfresh parent rfl

/--
A reference with the name of a rule that the same grammar defines is bound to that very rule if
and only if the name has no dot, whatever grammars it inherits from.
-/
theorem bound_to_own_rule_iff {id : GrammarId} {text : String} {parent? : Option (Scope P)}
    (hfresh : ∀ parent ∈ parent?, parent.Fresh id) (hparse : parse id text parent? = .ok scope)
    {index : Nat} {rule : Rule P} (hrule : scope.grammar.rules[index]? = some rule)
    {other : Rule P} (hother : other ∈ scope.grammar.rules) {link : Reference}
    (hlink : link ∈ other.body.references) (hname : link.name = rule.name) :
    scope.follow? ⟨id, index⟩ = some rule ∧
      (link.target? = some ⟨id, index⟩ ↔ '.' ∉ rule.name.toList) := by
  obtain ⟨read, rfl, rfl, hindexed, hparents⟩ := exists_read_of_parse hfresh hparse
  have hplace : read.grammar.ruleNames[index]? = some link.name := by
    rw [← ruleNames_resolve, ← ruleNames_normalize, Grammar.ruleNames, List.getElem?_map, hrule,
      hname, Option.map_some]
  constructor
  · have hgrammar : read.resolve.normalize.grammarWith? read.grammar.id =
        some read.resolve.normalize.grammar :=
      List.find?_cons_of_pos (beq_self_eq_true _)
    rw [follow?, hgrammar]
    exact hrule
  · obtain ⟨bound, hbound, rfl⟩ := List.mem_map.mp hother
    have hreferences : (Rule.normalize bound).body.references = bound.body.references :=
      Expansion.references_withProbabilities _ _
    rw [hreferences] at hlink
    rw [← hname]
    exact target?_resolve_eq_own_iff hindexed hparents hbound hlink hplace

def kitchenText : String := "grammar kitchen; public <open> = oven; public <close> = fridge;"

def menuText : String :=
  "grammar menu; public <menu.open> = file; public <open> = door; " ++
    "public <go> = <open> | <menu.open> | <close>;"

def kitchen : Scope ℚ := (parseLenient ⟨0⟩ kitchenText none).1

def menu : Scope ℚ := (parseLenient ⟨1⟩ menuText (some kitchen)).1

/-- What is read of the menu, and what the references of its last rule are bound to. -/
theorem menu_read : (parseLenient (P := ℚ) ⟨1⟩ menuText (some kitchen)).2 = [] ∧
    menu.grammar.ruleNames = ["menu.open", "open", "go"] ∧
    menu.grammar.rules[2]?.map (fun rule =>
        rule.body.references.map fun link => (link.name, link.target?)) =
      some [("open", some ⟨⟨1⟩, 1⟩), ("menu.open", some ⟨⟨1⟩, 1⟩), ("close", some ⟨⟨0⟩, 1⟩)] ∧
    ∀ grammar ∈ kitchen.chain, grammar.id ≠ ⟨1⟩ := by
  decide +kernel

theorem exists_of_menu {index : Nat} {name : String}
    (hplace : menu.grammar.ruleNames[index]? = some name) {target : Target}
    (hlisted : (name, some target) ∈ [("open", some (⟨⟨1⟩, 1⟩ : Target)),
      ("menu.open", some ⟨⟨1⟩, 1⟩), ("close", some ⟨⟨0⟩, 1⟩)]) :
    ∃ rule, menu.grammar.rules[index]? = some rule ∧ rule.name = name ∧
      ∃ other ∈ menu.grammar.rules, ∃ link ∈ other.body.references,
        link.name = name ∧ link.target? = some target := by
  obtain ⟨-, -, hreferences, -⟩ := menu_read
  rw [Grammar.ruleNames, List.getElem?_map] at hplace
  obtain ⟨rule, hrule, hname⟩ := Option.map_eq_some_iff.mp hplace
  obtain ⟨other, hother, hlinks⟩ := Option.map_eq_some_iff.mp hreferences
  rw [← hlinks] at hlisted
  obtain ⟨link, hlink, heq⟩ := List.mem_map.mp hlisted
  obtain ⟨hlinkName, htarget⟩ := Prod.mk.inj heq
  exact ⟨rule, hrule, hname, other, List.mem_of_getElem? hother, link, hlink, hlinkName, htarget⟩

/--
The reference `<open>` of `menu` is bound to the rule `<open>` of `menu`, not to that of its parent.
-/
theorem menu_open_own : parse ⟨1⟩ menuText (some kitchen) = .ok menu ∧
    ∃ rule, menu.grammar.rules[1]? = some rule ∧ rule.name = "open" ∧
      ∃ other ∈ menu.grammar.rules, ∃ link ∈ other.body.references, link.name = rule.name ∧
        menu.follow? ⟨⟨1⟩, 1⟩ = some rule ∧ link.target? = some ⟨⟨1⟩, 1⟩ := by
  obtain ⟨herrors, hnames, -, hids⟩ := menu_read
  have hparse : parse ⟨1⟩ menuText (some kitchen) = .ok menu :=
    parse_eq_ok_iff.mpr (Prod.ext rfl herrors)
  have hfresh : ∀ parent ∈ some kitchen, parent.Fresh ⟨1⟩ := by
    intro parent hparent
    obtain rfl := Option.some.inj hparent
    exact hids
  have hplace : menu.grammar.ruleNames[1]? = some "open" := by
    rw [hnames]
    rfl
  obtain ⟨rule, hrule, hname, other, hother, link, hlink, hlinkName, -⟩ :=
    exists_of_menu hplace (List.mem_cons_self ..)
  have hsame : link.name = rule.name := hlinkName.trans hname.symm
  obtain ⟨hfollow, hbound⟩ := bound_to_own_rule_iff hfresh hparse hrule hother hlink hsame
  refine ⟨hparse, rule, hrule, hname, other, hother, link, hlink, hsame, hfollow, ?_⟩
  apply hbound.mpr
  rw [hname]
  decide

/--
The reference `<menu.open>` of `menu` is bound to its rule `<open>`, although it has a rule named
`menu.open`.
-/
theorem menu_open_qualified : parse ⟨1⟩ menuText (some kitchen) = .ok menu ∧
    ∃ rule, menu.grammar.rules[0]? = some rule ∧ rule.name = "menu.open" ∧
      ∃ other ∈ menu.grammar.rules, ∃ link ∈ other.body.references, link.name = rule.name ∧
        link.target? = some ⟨⟨1⟩, 1⟩ ∧ menu.grammar.ruleNames[1]? = some "open" := by
  obtain ⟨herrors, hnames, -, -⟩ := menu_read
  have hplace : menu.grammar.ruleNames[0]? = some "menu.open" := by
    rw [hnames]
    rfl
  obtain ⟨rule, hrule, hname, other, hother, link, hlink, hlinkName, htarget⟩ :=
    exists_of_menu hplace (List.mem_cons_of_mem _ (List.mem_cons_self ..))
  refine ⟨parse_eq_ok_iff.mpr (Prod.ext rfl herrors), rule, hrule, hname, other, hother, link,
    hlink, hlinkName.trans hname.symm, htarget, ?_⟩
  rw [hnames]
  rfl

end SpeechGrammar.Scope
