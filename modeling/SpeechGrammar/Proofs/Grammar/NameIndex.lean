import Mathlib.Data.List.Nodup
import SpeechGrammar.Grammar.Parsing

/-!
# The index of rule names

A grammar keeps an index of the places of its rules by name.  The index is exact
if it has the name of each rule, with the place of the rule, and nothing else.
A grammar without rules has an exact index, and everything that is done to a
grammar keeps it exact: rules are only added under names that are not in the
index, and all other changes leave the names and the index alone.
-/

namespace SpeechGrammar

variable {P : Type}

namespace Grammar

variable {grammar other : Grammar P} {rule : Rule P} {name : String} {index : Nat}

def ruleNames (grammar : Grammar P) : List String := grammar.rules.map (·.name)

/-- Whether exactly the names of the rules are in the index, each with the place of its rule. -/
def Indexed (grammar : Grammar P) : Prop :=
  ∀ (name : String) (index : Nat),
    grammar.byName[name]? = some index ↔ grammar.ruleNames[index]? = some name

namespace Indexed

theorem ruleIndex?_eq_some_iff (hindexed : grammar.Indexed) :
    grammar.ruleIndex? name = some index ↔ grammar.ruleNames[index]? = some name :=
  hindexed name index

theorem ruleIndex?_eq_none_iff (hindexed : grammar.Indexed) :
    grammar.ruleIndex? name = none ↔ name ∉ grammar.ruleNames := by
  rw [Option.eq_none_iff_forall_ne_some, List.mem_iff_getElem?, not_exists]
  exact forall_congr' fun index => not_congr (hindexed name index)

theorem nodup (hindexed : grammar.Indexed) : grammar.ruleNames.Nodup := by
  rw [List.nodup_iff_getElem?_ne_getElem?]
  intro first second hlt hbound hsame
  have hfirst := (hindexed _ first).mpr (List.getElem?_eq_getElem (Nat.lt_trans hlt hbound))
  have hsecond := (hindexed _ second).mpr
    (hsame.symm.trans (List.getElem?_eq_getElem (Nat.lt_trans hlt hbound)))
  exact Nat.ne_of_lt hlt (Option.some.inj (hfirst.symm.trans hsecond))

theorem byName_eq (hindexed : grammar.Indexed) (hother : other.Indexed)
    (hnames : other.ruleNames = grammar.ruleNames) : other.byName = grammar.byName :=
  Std.ExtTreeMap.ext_getElem? fun name => Option.ext fun index => by
    rw [hother, hindexed, hnames]

theorem congr (hindexed : grammar.Indexed) (hbyName : other.byName = grammar.byName)
    (hnames : other.ruleNames = grammar.ruleNames) : other.Indexed := by
  rw [Indexed, hbyName, hnames]
  exact hindexed

end Indexed

theorem indexed_of_rules_eq_nil (hrules : grammar.rules = []) (hbyName : grammar.byName = ∅) :
    grammar.Indexed := by
  intro name index
  rw [hbyName, ruleNames, hrules]
  simp

@[simp] theorem rules_push (grammar : Grammar P) (rule : Rule P) :
    (grammar.push rule).rules = grammar.rules ++ [rule] :=
  rfl

@[simp] theorem ruleNames_push (grammar : Grammar P) (rule : Rule P) :
    (grammar.push rule).ruleNames = grammar.ruleNames ++ [rule.name] :=
  List.map_append

@[simp] theorem length_ruleNames (grammar : Grammar P) :
    grammar.ruleNames.length = grammar.rules.length :=
  List.length_map _

theorem ruleIndex?_push (grammar : Grammar P) (rule : Rule P) (name : String) :
    (grammar.push rule).ruleIndex? name =
      if rule.name = name then some grammar.rules.length else grammar.ruleIndex? name := by
  simp [ruleIndex?, push, Std.ExtTreeMap.getElem?_insert]

/-- A rule with a new name is put into the index along with the list. -/
theorem Indexed.push (hindexed : grammar.Indexed) (hnew : rule.name ∉ grammar.ruleNames) :
    (grammar.push rule).Indexed := by
  intro name index
  change (grammar.push rule).ruleIndex? name = some index ↔ _
  rw [ruleIndex?_push, ruleNames_push]
  have hplaces (place : Nat) : grammar.ruleNames[place]? ≠ some rule.name :=
    fun hplace => hnew (List.mem_of_getElem? hplace)
  by_cases hname : rule.name = name
  · grind [length_ruleNames]
  · rw [if_neg hname, hindexed.ruleIndex?_eq_some_iff]
    grind

theorem Indexed.add?_eq_some_iff (hindexed : grammar.Indexed) {more : Grammar P} :
    grammar.add? rule = some more ↔
      rule.name ∉ grammar.ruleNames ∧ more = grammar.push rule := by
  rw [add?, ← hindexed.ruleIndex?_eq_none_iff]
  cases grammar.ruleIndex? rule.name with
  | none => simp [eq_comm]
  | some index => simp

theorem Indexed.add? (hindexed : grammar.Indexed) {more : Grammar P}
    (hadd : grammar.add? rule = some more) : more.Indexed := by
  obtain ⟨hnew, rfl⟩ := hindexed.add?_eq_some_iff.mp hadd
  exact hindexed.push hnew

/-- Whatever the index of a grammar has, a rule can only be added at the end. -/
theorem eq_push_of_add? {more : Grammar P} (hadd : grammar.add? rule = some more) :
    more = grammar.push rule := by
  rw [add?] at hadd
  split at hadd
  · cases hadd
  · exact (Option.some.inj hadd).symm

/-- Rules put at the end one by one change nothing but the rules and the index. -/
theorem foldl_push_eq (grammar : Grammar P) (rules : List (Rule P)) :
    rules.foldl push grammar = { grammar with
      rules := grammar.rules ++ rules, byName := (rules.foldl push grammar).byName } := by
  induction rules generalizing grammar with
  | nil => simp
  | cons rule rules ih =>
      rw [List.foldl_cons, ih, rules_push, List.append_assoc, List.singleton_append]
      rfl

theorem Indexed.foldl_push (hindexed : grammar.Indexed) {rules : List (Rule P)}
    (hnodup : (grammar.ruleNames ++ rules.map (·.name)).Nodup) :
    (rules.foldl Grammar.push grammar).Indexed := by
  induction rules generalizing grammar with
  | nil => exact hindexed
  | cons rule rules ih =>
      rw [List.map_cons] at hnodup
      have hnew : rule.name ∉ grammar.ruleNames := fun hmem =>
        (List.nodup_append.mp hnodup).2.2 _ hmem _ (List.mem_cons_self ..) rfl
      refine ih (hindexed.push hnew) ?_
      rwa [ruleNames_push, List.append_assoc, List.singleton_append]

/-- A grammar with an exact index comes of its rules, put one by one where there are none. -/
theorem Indexed.foldl_push_rules (hindexed : grammar.Indexed) :
    grammar.rules.foldl Grammar.push { grammar with rules := [], byName := ∅ } = grammar := by
  have hempty : ({ grammar with rules := [], byName := ∅ } : Grammar P).Indexed :=
    indexed_of_rules_eq_nil rfl rfl
  have heq := foldl_push_eq { grammar with rules := [], byName := ∅ } grammar.rules
  have hnames : (grammar.rules.foldl Grammar.push
      { grammar with rules := [], byName := ∅ }).ruleNames = grammar.ruleNames := by
    rw [heq]
    rfl
  have hbyName := hindexed.byName_eq (hempty.foldl_push hindexed.nodup) hnames
  rw [heq, hbyName]
  rfl

end Grammar

/-! ## Grammars that are read, and scopes -/

namespace Draft

variable {draft : Draft P} {holds : Grammar P → Prop}

theorem holds_define
    (hadd : ∀ {grammar more : Grammar P} {rule : Rule P}, holds grammar →
      grammar.add? rule = some more → holds more)
    (hdraft : holds draft.grammar) (rule : Rule P) (duplicate : Source.SyntaxError) :
    holds (draft.define rule duplicate).grammar := by
  rw [define]
  split
  · rename_i more hmore
    exact hadd hdraft hmore
  · exact hdraft

theorem holds_take
    (hadd : ∀ {grammar more : Grammar P} {rule : Rule P}, holds grammar →
      grammar.add? rule = some more → holds more)
    (hdraft : holds draft.grammar) (text : List Char) (statement : Source.Statement P) :
    holds (draft.take text statement).grammar := by
  match statement with
  | .malformed _ => exact hdraft
  | .definition _ _ (.ok _) => exact holds_define hadd hdraft _ _
  | .definition _ _ (.error _) => exact holds_define hadd hdraft _ _

/-- Reading a text adds rules one by one to a grammar with the text's header. -/
theorem holds_ofText [BranchWeight P] {empty : Grammar P}
    (hadd : ∀ {grammar more : Grammar P} {rule : Rule P}, holds grammar →
      grammar.add? rule = some more → holds more)
    (hempty : ∀ name? imports, holds { empty with name?, imports }) (text : List Char) :
    holds (ofText empty text).grammar := by
  have hfold (statements : List (Source.Statement P)) (draft : Draft P) :
      holds draft.grammar → holds (statements.foldl (Draft.take text) draft).grammar := by
    induction statements generalizing draft with
    | nil => exact id
    | cons statement statements ih =>
        exact fun hdraft => ih _ (holds_take hadd hdraft text statement)
  unfold ofText
  split
  · exact hempty empty.name? empty.imports
  · exact hfold _ _ (hempty _ _)

theorem id_ofText [BranchWeight P] (empty : Grammar P) (text : List Char) :
    (ofText empty text).grammar.id = empty.id := by
  refine @holds_ofText P (·.id = empty.id) _ _ (fun {_ _ _} hid hadd => ?_) (fun _ _ => rfl) text
  rw [Grammar.eq_push_of_add? hadd]
  exact hid

theorem indexed_ofText [BranchWeight P] {empty : Grammar P} (hempty : empty.Indexed)
    (text : List Char) : (ofText empty text).grammar.Indexed :=
  holds_ofText (fun {_ _ _} hindexed => hindexed.add?) (fun _ _ => hempty.congr rfl rfl) text

end Draft

namespace Scope

variable {scope : Scope P}

/-- Whether the indexes of all grammars of a scope are exact. -/
def Indexed (scope : Scope P) : Prop := ∀ grammar ∈ scope.chain, grammar.Indexed

theorem ruleNames_resolve (scope : Scope P) :
    scope.resolve.grammar.ruleNames = scope.grammar.ruleNames := by
  refine List.ext_getElem? fun index => ?_
  simp [Grammar.ruleNames, resolve, Grammar.markRecursive, bindRule, Function.comp_def]

theorem ruleNames_normalize [BranchWeight P] (scope : Scope P) :
    scope.normalize.grammar.ruleNames = scope.grammar.ruleNames :=
  List.map_map

theorem indexed_child (id : GrammarId) {parent? : Option (Scope P)}
    (hparent : ∀ parent ∈ parent?, parent.Indexed) : (child id parent?).Indexed := by
  refine List.forall_mem_cons.mpr ⟨Grammar.indexed_of_rules_eq_nil rfl rfl, ?_⟩
  cases parent? with
  | none => exact fun grammar hgrammar => nomatch hgrammar
  | some parent => exact hparent parent rfl

namespace Indexed

theorem replace (hindexed : scope.Indexed) {grammar : Grammar P} (hgrammar : grammar.Indexed) :
    ({ scope with grammar } : Scope P).Indexed :=
  List.forall_mem_cons.mpr ⟨hgrammar, (List.forall_mem_cons.mp hindexed).2⟩

theorem grammar (hindexed : scope.Indexed) : scope.grammar.Indexed :=
  hindexed scope.grammar (List.mem_cons_self ..)

theorem resolve (hindexed : scope.Indexed) : scope.resolve.Indexed :=
  hindexed.replace (hindexed.grammar.congr rfl scope.ruleNames_resolve)

theorem normalize [BranchWeight P] (hindexed : scope.Indexed) : scope.normalize.Indexed :=
  hindexed.replace (hindexed.grammar.congr rfl scope.ruleNames_normalize)

theorem copy (hindexed : scope.Indexed) (id : GrammarId) : (scope.copy id).Indexed :=
  hindexed.replace (hindexed.grammar.congr rfl List.map_map)

theorem addWord (hindexed : scope.Indexed) (word : String) :
    ({ scope with grammar := scope.grammar.addWord word } : Scope P).Indexed :=
  hindexed.replace (hindexed.grammar.congr rfl rfl)

theorem addRule (hindexed : scope.Indexed) {rule : Rule P} {more : Grammar P}
    (hadd : scope.grammar.add? rule = some more) :
    ({ scope with grammar := more } : Scope P).Indexed :=
  hindexed.replace (hindexed.grammar.add? hadd)

end Indexed

theorem indexed_parseLenient [BranchWeight P] (id : GrammarId) (text : String)
    {parent? : Option (Scope P)} (hparent : ∀ parent ∈ parent?, parent.Indexed) :
    (parseLenient id text parent?).1.Indexed := by
  have hchild := indexed_child id hparent
  exact (hchild.replace (Draft.indexed_ofText hchild.grammar text.toList)).resolve.normalize

end Scope

end SpeechGrammar
