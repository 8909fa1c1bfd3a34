import SpeechGrammar.Proofs.Expansion.Everywhere
import SpeechGrammar.Proofs.Grammar.NameIndex
import SpeechGrammar.Proofs.Grammar.Prepared

/-!
# Where bound references lead

A reference is bound to the place of a rule in a grammar with an identity.  As
long as every grammar gets an identity that none it inherits from has, that
rule is found again: binding finds rules of the scope only, and nothing that is
done to a scope afterwards moves a rule.  A rule without unresolved names has
no reference that is not bound.
-/

namespace SpeechGrammar

variable {P : Type}

/-- The place of a rule in one of some grammars. -/
def Target.IsIn (target : Target) (chain : List (Grammar P)) : Prop :=
  ∃ grammar ∈ chain, grammar.id = target.grammar ∧ target.index < grammar.rules.length

/-- All references of a rule mean rules of some grammars, or are known to mean none. -/
def Rule.Linked (rule : Rule P) (chain : List (Grammar P)) : Prop :=
  ∀ link ∈ rule.body.references,
    (rule.unresolved = [] → link.target? ≠ none) ∧ ∀ target ∈ link.target?, target.IsIn chain

/-- Grammars that inherit one from another, each with an identity and references of its own. -/
def Grammar.Linked : List (Grammar P) → Prop
  | [] => True
  | grammar :: parents =>
      (∀ parent ∈ parents, parent.id ≠ grammar.id) ∧
        (∀ rule ∈ grammar.rules, rule.Linked (grammar :: parents)) ∧ Grammar.Linked parents

/-- A scope whose references can all be followed. -/
def Scope.Linked (scope : Scope P) : Prop := Grammar.Linked scope.chain

theorem Target.IsIn.cons {target : Target} {chain : List (Grammar P)} (hin : target.IsIn chain)
    (grammar : Grammar P) : target.IsIn (grammar :: chain) := by
  obtain ⟨other, hother, hrest⟩ := hin
  exact ⟨other, List.mem_cons_of_mem _ hother, hrest⟩

theorem Target.isIn_cons_iff {target : Target} {grammar : Grammar P}
    {parents : List (Grammar P)} :
    target.IsIn (grammar :: parents) ↔
      (grammar.id = target.grammar ∧ target.index < grammar.rules.length) ∨
        target.IsIn parents := by
  simp [IsIn]

theorem Target.IsIn.replace {target : Target} {grammar other : Grammar P}
    {parents : List (Grammar P)} (hin : target.IsIn (grammar :: parents))
    (hid : other.id = grammar.id) (hlength : other.rules.length = grammar.rules.length) :
    target.IsIn (other :: parents) := by
  rw [isIn_cons_iff] at hin ⊢
  rwa [hid, hlength]

theorem Rule.Linked.congr {rule other : Rule P} {chain others : List (Grammar P)}
    (hlinked : rule.Linked chain) (hreferences : other.body.references = rule.body.references)
    (hunresolved : other.unresolved = rule.unresolved)
    (htargets : ∀ target : Target, target.IsIn chain → target.IsIn others) :
    other.Linked others := by
  intro link hlink
  rw [hreferences] at hlink
  rw [hunresolved]
  obtain ⟨hbound, hin⟩ := hlinked link hlink
  exact ⟨hbound, fun target htarget => htargets target (hin target htarget)⟩

namespace Scope

def targets (scope : Scope P) : List Target :=
  scope.chain.flatMap fun grammar =>
    (List.range grammar.rules.length).map fun index => ⟨grammar.id, index⟩

theorem length_targets (scope : Scope P) : scope.targets.length = scope.ruleCount := by
  simp [targets, ruleCount, List.length_flatMap]

theorem mem_targets_iff {scope : Scope P} {target : Target} :
    target ∈ scope.targets ↔ target.IsIn scope.chain := by
  rw [targets, List.mem_flatMap, Target.IsIn]
  refine exists_congr fun grammar => and_congr_right fun _ => ?_
  rw [List.mem_map]
  constructor
  · rintro ⟨index, hindex, rfl⟩
    exact ⟨rfl, List.mem_range.mp hindex⟩
  · rintro ⟨hid, hindex⟩
    exact ⟨target.index, List.mem_range.mpr hindex, by rw [hid]⟩

theorem mem_targets {scope : Scope P} {target : Target} {rule : Rule P}
    (hrule : scope.follow? target = some rule) : target ∈ scope.targets := by
  rw [follow?, grammarWith?] at hrule
  cases hgrammar : scope.chain.find? (·.id == target.grammar) with
  | none => simp [hgrammar] at hrule
  | some grammar =>
      rw [hgrammar] at hrule
      obtain ⟨hlt, -⟩ := List.getElem?_eq_some_iff.mp hrule
      have hid : grammar.id = target.grammar := by simpa using List.find?_some hgrammar
      exact mem_targets_iff.mpr ⟨grammar, List.mem_of_find?_eq_some hgrammar, hid, hlt⟩

end Scope

/-- A grammar is found by its identity if no other one has the same. -/
theorem Grammar.find?_eq_of_pairwise {chain : List (Grammar P)}
    (hids : chain.Pairwise fun first second => second.id ≠ first.id) {grammar : Grammar P}
    (hgrammar : grammar ∈ chain) : chain.find? (·.id == grammar.id) = some grammar := by
  induction hids with
  | nil => cases hgrammar
  | @cons first chain hdiffer _ ih =>
      rcases List.mem_cons.mp hgrammar with rfl | hgrammar
      · rw [List.find?_cons_of_pos (by simp)]
      · have hother : first.id ≠ grammar.id := (hdiffer grammar hgrammar).symm
        rw [List.find?_cons_of_neg (by simpa using hother)]
        exact ih hgrammar

theorem Grammar.Linked.pairwise {chain : List (Grammar P)} (hlinked : Grammar.Linked chain) :
    chain.Pairwise fun first second => second.id ≠ first.id := by
  induction chain with
  | nil => exact .nil
  | cons grammar chain ih => exact .cons hlinked.1 (ih hlinked.2.2)

theorem Grammar.Linked.rule {chain : List (Grammar P)} (hlinked : Grammar.Linked chain)
    {grammar : Grammar P} (hgrammar : grammar ∈ chain) {rule : Rule P}
    (hrule : rule ∈ grammar.rules) : rule.Linked chain := by
  induction chain with
  | nil => cases hgrammar
  | cons first chain ih =>
      rcases List.mem_cons.mp hgrammar with rfl | hgrammar
      · exact hlinked.2.1 rule hrule
      · intro link hlink
        obtain ⟨hbound, htargets⟩ := ih hlinked.2.2 hgrammar link hlink
        exact ⟨hbound, fun target htarget => (htargets target htarget).cons first⟩

namespace Scope

variable {scope : Scope P}

/-- The rules of a linked scope can all be followed. -/
theorem Linked.exists_follow? (hlinked : scope.Linked) {target : Target}
    (htarget : target ∈ scope.targets) : ∃ rule, scope.follow? target = some rule := by
  obtain ⟨grammar, hgrammar, hid, hindex⟩ := mem_targets_iff.mp htarget
  rw [follow?, grammarWith?, ← hid, Grammar.find?_eq_of_pairwise hlinked.pairwise hgrammar]
  exact ⟨_, List.getElem?_eq_getElem hindex⟩

theorem Linked.rule (hlinked : scope.Linked) {target : Target} {rule : Rule P}
    (hrule : scope.follow? target = some rule) : rule.Linked scope.chain := by
  rw [follow?, grammarWith?] at hrule
  cases hgrammar : scope.chain.find? (·.id == target.grammar) with
  | none => simp [hgrammar] at hrule
  | some grammar =>
      rw [hgrammar] at hrule
      exact Grammar.Linked.rule hlinked (List.mem_of_find?_eq_some hgrammar)
        (List.mem_of_getElem? hrule)

/-! ## Changes to a scope's own grammar -/

theorem exists_of_lookup? {link : Reference} {target : Target}
    (hlookup : scope.lookup? link = some target) :
    ∃ grammar ∈ scope.chain, grammar.id = target.grammar ∧
      grammar.ruleIndex? link.ruleName = some target.index := by
  obtain ⟨grammar, hgrammar, hfound⟩ := List.exists_of_findSome?_eq_some hlookup
  obtain ⟨index, hindex, rfl⟩ := Option.map_eq_some_iff.mp hfound
  exact ⟨grammar, (List.mem_filter.mp hgrammar).1, rfl, hindex⟩

theorem isIn_of_lookup? (hindexed : scope.Indexed) {link : Reference} {target : Target}
    (hlookup : scope.lookup? link = some target) : target.IsIn scope.chain := by
  obtain ⟨grammar, hgrammar, hid, hindex⟩ := exists_of_lookup? hlookup
  rw [(hindexed grammar hgrammar).ruleIndex?_eq_some_iff] at hindex
  obtain ⟨hlt, -⟩ := List.getElem?_eq_some_iff.mp hindex
  rw [Grammar.length_ruleNames] at hlt
  exact ⟨grammar, hgrammar, hid, hlt⟩

theorem eq_nil_of_distinct_eq_nil {α : Type} [DecidableEq α] {values : List α}
    (hdistinct : distinct values = []) : values = [] := by
  have hkeeps : ∀ (values kept : List α), kept ≠ [] →
      values.foldl (fun kept value => if value ∈ kept then kept else kept ++ [value]) kept ≠
        [] := by
    intro values
    induction values with
    | nil => exact fun kept hkept => hkept
    | cons value values ih =>
        intro kept hkept
        refine ih _ ?_
        dsimp only
        split
        · exact hkept
        · simp
  cases values with
  | nil => rfl
  | cons value values => exact absurd hdistinct (hkeeps values [value] (by simp))

theorem linked_bindRule (hindexed : scope.Indexed) (rule : Rule P) :
    (scope.bindRule rule).Linked scope.chain := by
  intro link hlink
  refine ⟨fun hunresolved hunbound => ?_, fun target htarget => ?_⟩
  · have hnames := eq_nil_of_distinct_eq_nil hunresolved
    rw [List.map_eq_nil_iff, List.filter_eq_nil_iff] at hnames
    exact hnames link hlink (by rw [hunbound]; rfl)
  · change link ∈ (rule.body.mapReferences scope.bindReference).references at hlink
    rw [Expansion.references_mapReferences] at hlink
    obtain ⟨old, -, rfl⟩ := List.mem_map.mp hlink
    exact isIn_of_lookup? hindexed htarget

/-- Once its references are bound a scope is linked if the grammars behind its own one are. -/
theorem linked_resolve (hindexed : scope.Indexed)
    (hfresh : ∀ parent ∈ scope.parents, parent.id ≠ scope.grammar.id)
    (hparents : Grammar.Linked scope.parents) : scope.resolve.Linked := by
  refine ⟨hfresh, fun rule hrule => ?_, hparents⟩
  obtain ⟨index, hindex, rfl⟩ := List.mem_mapIdx.mp hrule
  obtain ⟨old, -, heq⟩ := List.mem_map.mp (List.getElem_mem hindex)
  dsimp only
  rw [← heq]
  refine (linked_bindRule hindexed old).congr rfl rfl fun target htarget => ?_
  exact Target.IsIn.replace htarget rfl (by simp [resolve, Grammar.markRecursive])

theorem Linked.normalize [BranchWeight P] (hlinked : scope.Linked) : scope.normalize.Linked := by
  refine ⟨hlinked.1, fun rule hrule => ?_, hlinked.2.2⟩
  obtain ⟨old, hold, rfl⟩ := List.mem_map.mp hrule
  refine (hlinked.2.1 old hold).congr (Expansion.references_withProbabilities ..) rfl ?_
  exact fun target htarget => htarget.replace rfl (List.length_map _)

/-- Rules of a copied grammar are copied along. -/
theorem Linked.copy (hlinked : scope.Linked) {id : GrammarId}
    (hfresh : ∀ parent ∈ scope.parents, parent.id ≠ id) : (scope.copy id).Linked := by
  refine ⟨hfresh, fun rule hrule => ?_, hlinked.2.2⟩
  obtain ⟨old, hold, rfl⟩ := List.mem_map.mp hrule
  intro link hlink
  rw [Expansion.references_mapReferences] at hlink
  obtain ⟨origin, horigin, rfl⟩ := List.mem_map.mp hlink
  obtain ⟨hbound, hin⟩ := hlinked.2.1 old hold origin horigin
  refine ⟨fun hunresolved hnone => hbound hunresolved (by simpa using hnone), ?_⟩
  intro moved hmoved
  obtain ⟨target, htarget, rfl⟩ := Option.map_eq_some_iff.mp hmoved
  rcases Target.isIn_cons_iff.mp (hin target htarget) with ⟨hown, hindex⟩ | hparents
  · rw [if_pos hown.symm]
    exact Target.isIn_cons_iff.mpr (.inl ⟨rfl, by simpa [Scope.copy, Grammar.copy] using hindex⟩)
  · obtain ⟨parent, hparent, hid, hindex⟩ := hparents
    rw [if_neg fun hown => hlinked.1 parent hparent (hid.trans hown)]
    exact Target.isIn_cons_iff.mpr (.inr ⟨parent, hparent, hid, hindex⟩)

theorem Linked.addWord (hlinked : scope.Linked) (word : String) :
    ({ scope with grammar := scope.grammar.addWord word } : Scope P).Linked := by
  refine ⟨hlinked.1, fun rule hrule => ?_, hlinked.2.2⟩
  exact (hlinked.2.1 rule hrule).congr rfl rfl fun target htarget => htarget.replace rfl rfl

theorem linked_child (id : GrammarId) {parent? : Option (Scope P)}
    (hparent : ∀ parent ∈ parent?, parent.Linked)
    (hfresh : ∀ parent ∈ parent?, ∀ grammar ∈ parent.chain, grammar.id ≠ id) :
    (child id parent?).Linked := by
  refine ⟨?_, fun rule hrule => (nomatch hrule), ?_⟩
  · cases parent? with
    | none => exact fun parent hmem => nomatch hmem
    | some parent => exact hfresh parent rfl
  · cases parent? with
    | none => trivial
    | some parent => exact hparent parent rfl

/-! ## How scopes come to be linked -/

def Fresh (scope : Scope P) (id : GrammarId) : Prop := ∀ grammar ∈ scope.chain, grammar.id ≠ id

/-- Scopes as they come about when every grammar gets an identity of its own. -/
inductive Identified [BranchWeight P] : Scope P → Prop where
  | empty (id : GrammarId) {parent? : Option (Scope P)}
      (hparent : ∀ parent ∈ parent?, Identified parent)
      (hfresh : ∀ parent ∈ parent?, parent.Fresh id) : Identified (child id parent?)
  | read (id : GrammarId) (text : String) {parent? : Option (Scope P)}
      (hparent : ∀ parent ∈ parent?, Identified parent)
      (hfresh : ∀ parent ∈ parent?, parent.Fresh id) :
      Identified (parseLenient id text parent?).1
  | resolve {scope : Scope P} (hscope : Identified scope) : Identified scope.resolve
  | normalize {scope : Scope P} (hscope : Identified scope) : Identified scope.normalize
  | copy {scope : Scope P} (hscope : Identified scope) (id : GrammarId)
      (hfresh : scope.Fresh id) : Identified (scope.copy id)
  | addWord {scope : Scope P} (hscope : Identified scope) (word : String) :
      Identified { scope with grammar := scope.grammar.addWord word }

namespace Identified

variable [BranchWeight P]

theorem prepared (hscope : scope.Identified) : scope.Prepared := by
  induction hscope with
  | empty id _ _ ih => exact .empty id ih
  | read id text _ _ ih => exact .read id text ih
  | resolve _ ih => exact .resolve ih
  | normalize _ ih => exact .normalize ih
  | copy _ id _ ih => exact .copy ih id
  | addWord _ word ih => exact .addWord ih word

/-- If all identities are different, every bound reference leads to its rule. -/
theorem linked (hscope : scope.Identified) : scope.Linked := by
  induction hscope with
  | empty id _ hfresh ih => exact linked_child id ih hfresh
  | read id text hparent hfresh ih =>
      have hchild := linked_child id ih hfresh
      have hindexed := indexed_child id fun parent hmem => (hparent parent hmem).prepared.indexed
      refine Linked.normalize (linked_resolve ?_ ?_ hchild.2.2)
      · exact hindexed.replace (Draft.indexed_ofText hindexed.grammar text.toList)
      · rw [Draft.id_ofText]
        exact hchild.1
  | resolve hscope ih => exact linked_resolve hscope.prepared.indexed ih.1 ih.2.2
  | normalize _ ih => exact ih.normalize
  | copy _ id hfresh ih => exact ih.copy fun parent hparent => hfresh parent (.tail _ hparent)
  | addWord _ word ih => exact ih.addWord word

end Identified

theorem identified_of_parse [BranchWeight P] {id : GrammarId} {text : String}
    {parent? : Option (Scope P)} (hparent : ∀ parent ∈ parent?, parent.Identified)
    (hfresh : ∀ parent ∈ parent?, parent.Fresh id) (hparse : parse id text parent? = .ok scope) :
    scope.Identified := by
  have hread := Identified.read id text hparent hfresh
  rwa [parse_eq_ok_iff.mp hparse] at hread

end Scope

end SpeechGrammar
