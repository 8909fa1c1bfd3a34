import SpeechGrammar.Proofs.Grammar.Linking

/-!
# The identity of a grammar does not matter

The identity of a grammar serves to find it.  A grammar that is given another
one, new in its scope, is bound just as before: what its references mean, which
names are unresolved and which rules are recursive stays the same, but for the
identity itself.  So binding a grammar under another identity gives a copy.
-/

namespace SpeechGrammar

variable {P : Type}

namespace Expansion

theorem mapReferences_mapReferences (first second : Reference → Reference)
    (expansion : Expansion P) :
    (expansion.mapReferences first).mapReferences second =
      expansion.mapReferences (second ∘ first) := by
  induction expansion using structural with
  | literal text => rfl
  | reference link => rfl
  | sequence items ih =>
      simp only [mapReferences, mapReferencesOfItems_eq_map, List.map_map]
      exact congrArg sequence (List.map_congr_left ih)
  | alternation branches ih =>
      simp only [mapReferences, mapReferencesOfBranches_eq_map, List.map_map]
      refine congrArg alternation (List.map_congr_left fun branch hbranch => ?_)
      exact congrArg (Branch.mk branch.weight? branch.probability) (ih branch hbranch)
  | repetition body least most? ih => simp only [mapReferences, ih]
  | optional body ih => simp only [mapReferences, ih]
  | tagged body tags ih => simp only [mapReferences, ih]

theorem withProbabilities_mapReferences (share : List (Option P) → Option P → P)
    (change : Reference → Reference) (expansion : Expansion P) :
    (expansion.mapReferences change).withProbabilities share =
      (expansion.withProbabilities share).mapReferences change := by
  induction expansion using structural with
  | literal text => rfl
  | reference link => rfl
  | sequence items ih =>
      simp only [mapReferences, withProbabilities, mapReferencesOfItems_eq_map,
        itemsWithProbabilities_eq_map, List.map_map]
      exact congrArg sequence (List.map_congr_left ih)
  | alternation branches ih =>
      simp only [mapReferences, withProbabilities, mapReferencesOfBranches_eq_map,
        branchesWithProbabilities_eq_map, List.map_map]
      refine congrArg alternation (List.map_congr_left fun branch hbranch => ?_)
      exact congrArg (Branch.mk branch.weight? _) (ih branch hbranch)
  | repetition body least most? ih => simp only [mapReferences, withProbabilities, ih]
  | optional body ih => simp only [mapReferences, withProbabilities, ih]
  | tagged body tags ih => simp only [mapReferences, withProbabilities, ih]

end Expansion

/-- The same rule of a grammar whose identity is changed. -/
def Target.move (old new : GrammarId) (target : Target) : Target :=
  if target.grammar = old then { target with grammar := new } else target

def Reference.move (old new : GrammarId) (link : Reference) : Reference :=
  { link with target? := link.target?.map (Target.move old new) }

theorem Grammar.copy_eq (grammar : Grammar P) (id : GrammarId) :
    grammar.copy id =
      { grammar with
        id
        rules := grammar.rules.map fun rule =>
          { rule with body := rule.body.mapReferences (Reference.move grammar.id id) } } :=
  rfl

theorem Target.move_of_ne {old : GrammarId} (new : GrammarId) {target : Target}
    (hne : target.grammar ≠ old) : target.move old new = target :=
  if_neg hne

/-- Under another identity of their grammar the same references are bound. -/
theorem Expansion.unboundNames_move (old new : GrammarId) (expansion : Expansion P) :
    (expansion.mapReferences (Reference.move old new)).unboundNames = expansion.unboundNames := by
  rw [unboundNames, references_mapReferences, List.filter_map, List.map_map]
  have hbound : (fun link : Reference => link.target?.isNone) ∘ Reference.move old new =
      fun link => link.target?.isNone := funext fun link => Option.isNone_map
  rw [hbound]
  rfl

/-! ## Recursion and binding -/

/-- Whether the bound references of a rule lead into some grammars, to rules there or not. -/
def Rule.StaysIn (rule : Rule P) (chain : List (Grammar P)) : Prop :=
  ∀ link ∈ rule.body.references, ∀ target ∈ link.target?,
    ∃ grammar ∈ chain, grammar.id = target.grammar

theorem Scope.staysIn_bindRule (scope : Scope P) (rule : Rule P) :
    (scope.bindRule rule).StaysIn scope.chain := by
  intro link hlink target htarget
  change link ∈ (rule.body.mapReferences scope.bindReference).references at hlink
  rw [Expansion.references_mapReferences] at hlink
  obtain ⟨old, -, rfl⟩ := List.mem_map.mp hlink
  obtain ⟨grammar, hgrammar, hid, -⟩ := exists_of_lookup? htarget
  exact ⟨grammar, hgrammar, hid⟩

section Recursion

variable {grammar : Grammar P} {parents : List (Grammar P)} {id : GrammarId}

theorem Grammar.localSuccessors_copy (hfresh : ∀ parent ∈ parents, parent.id ≠ id)
    (hstays : ∀ rule ∈ grammar.rules, rule.StaysIn (grammar :: parents)) (index : Nat) :
    (grammar.copy id).localSuccessors index = grammar.localSuccessors index := by
  rw [Grammar.copy_eq, localSuccessors, localSuccessors, List.getElem?_map]
  cases hrule : grammar.rules[index]? with
  | none => rfl
  | some rule =>
      dsimp only [Option.map_some]
      rw [Expansion.references_mapReferences, List.filterMap_map, List.filterMap_filterMap,
        List.filterMap_filterMap]
      refine List.filterMap_congr fun link hlink => ?_
      change (link.target?.map (Target.move grammar.id id)).bind _ = link.target?.bind _
      cases htarget : link.target? with
      | none => rfl
      | some target =>
          obtain ⟨other, hmem, hid⟩ :=
            hstays rule (List.mem_of_getElem? hrule) link hlink target htarget
          rw [Option.map_some, Option.bind_some, Option.bind_some]
          by_cases hown : target.grammar = grammar.id
          · rw [Target.move, if_pos hown, if_pos rfl, if_pos hown]
          · have hother : target.grammar ≠ id := by
              rcases List.mem_cons.mp hmem with rfl | hparent
              · exact absurd hid.symm hown
              · exact hid ▸ hfresh other hparent
            rw [Target.move_of_ne id hown, if_neg hother, if_neg hown]

theorem Grammar.markRecursive_copy (grammar : Grammar P)
    (hfresh : ∀ parent ∈ parents, parent.id ≠ id)
    (hstays : ∀ rule ∈ grammar.rules, rule.StaysIn (grammar :: parents)) :
    (grammar.copy id).markRecursive = grammar.markRecursive.copy id := by
  have hsuccessors : (grammar.copy id).localSuccessors = grammar.localSuccessors :=
    funext (localSuccessors_copy hfresh hstays)
  have hcyclic : (grammar.copy id).cyclicRules = grammar.cyclicRules := by
    rw [cyclicRules, cyclicRules, hsuccessors]
    simp [Grammar.copy_eq]
  have hrules : (grammar.copy id).markRecursive.rules =
      (grammar.markRecursive.copy id).rules := by
    rw [markRecursive, hcyclic]
    refine List.ext_getElem? fun index => ?_
    simp [copy_eq, markRecursive, Function.comp_def]
  exact congrArg (fun rules : List (Rule P) => { grammar with id, rules }) hrules

end Recursion

namespace Scope

variable {grammar : Grammar P} {parents : List (Grammar P)} {id : GrammarId}

/-- Under another identity a name is looked up just as before. -/
theorem lookup?_withId (hown : ∀ parent ∈ parents, parent.id ≠ grammar.id) (link : Reference) :
    (⟨{ grammar with id }, parents⟩ : Scope P).lookup? link =
      ((⟨grammar, parents⟩ : Scope P).lookup? link).map (Target.move grammar.id id) := by
  have hparents : ∀ (holds : Grammar P → Bool) (name : String),
      (parents.filter holds).findSome? (·.targetOf? name) =
        ((parents.filter holds).findSome? (·.targetOf? name)).map
          (Target.move grammar.id id) := by
    intro holds name
    cases hfound : (parents.filter holds).findSome? (·.targetOf? name) with
    | none => rfl
    | some target =>
        obtain ⟨parent, hparent, htarget⟩ := List.exists_of_findSome?_eq_some hfound
        obtain ⟨index, -, rfl⟩ := Option.map_eq_some_iff.mp htarget
        have hne := hown parent (List.mem_filter.mp hparent).1
        exact congrArg some (Target.move_of_ne id hne).symm
  have hown : ({ grammar with id } : Grammar P).targetOf? link.ruleName =
      (grammar.targetOf? link.ruleName).map (Target.move grammar.id id) := by
    rw [Grammar.targetOf?, Grammar.targetOf?, Option.map_map]
    refine congrArg (Option.map · (grammar.ruleIndex? link.ruleName)) (funext fun index => ?_)
    exact (if_pos rfl).symm
  simp only [lookup?, chain, List.filter_cons]
  change (if grammar.admits _ then _ else _ : List (Grammar P)).findSome? _ = _
  split
  · rw [List.findSome?_cons, List.findSome?_cons, hown]
    cases grammar.targetOf? link.ruleName with
    | none => exact hparents _ _
    | some target => rfl
  · exact hparents _ _

/-- Under another identity a rule is bound just as before. -/
theorem bindRule_withId (hown : ∀ parent ∈ parents, parent.id ≠ grammar.id) (rule : Rule P) :
    (⟨{ grammar with id }, parents⟩ : Scope P).bindRule rule =
      { (⟨grammar, parents⟩ : Scope P).bindRule rule with
        body := ((⟨grammar, parents⟩ : Scope P).bindRule rule).body.mapReferences
          (Reference.move grammar.id id) } := by
  have hbody : rule.body.mapReferences
      (⟨{ grammar with id }, parents⟩ : Scope P).bindReference =
        (rule.body.mapReferences (⟨grammar, parents⟩ : Scope P).bindReference).mapReferences
          (Reference.move grammar.id id) := by
    rw [Expansion.mapReferences_mapReferences]
    refine congrArg (Expansion.mapReferences · rule.body) (funext fun link => ?_)
    rw [bindReference, lookup?_withId hown]
    rfl
  rw [bindRule, hbody]
  dsimp only
  rw [Expansion.unboundNames_move]
  rfl

/-- Binding a grammar under another identity gives a copy of it as it is bound. -/
theorem resolve_withId (hown : ∀ parent ∈ parents, parent.id ≠ grammar.id)
    (hfresh : ∀ parent ∈ parents, parent.id ≠ id) :
    (⟨{ grammar with id }, parents⟩ : Scope P).resolve =
      (⟨grammar, parents⟩ : Scope P).resolve.copy id := by
  have hrules : grammar.rules.map (⟨{ grammar with id }, parents⟩ : Scope P).bindRule =
      (grammar.rules.map (⟨grammar, parents⟩ : Scope P).bindRule).map fun rule =>
        { rule with body := rule.body.mapReferences (Reference.move grammar.id id) } := by
    rw [List.map_map]
    exact List.map_congr_left fun rule _ => bindRule_withId hown rule
  have hstays : ∀ rule ∈ grammar.rules.map (⟨grammar, parents⟩ : Scope P).bindRule,
      rule.StaysIn ({ grammar with
        rules := grammar.rules.map (⟨grammar, parents⟩ : Scope P).bindRule } :: parents) := by
    refine List.forall_mem_map.mpr fun rule _ link hlink target htarget => ?_
    obtain ⟨other, hother, hid⟩ :=
      (⟨grammar, parents⟩ : Scope P).staysIn_bindRule rule link hlink target htarget
    rcases List.mem_cons.mp hother with rfl | hparent
    · exact ⟨_, List.mem_cons_self .., hid⟩
    · exact ⟨other, List.mem_cons_of_mem _ hparent, hid⟩
  have hmark := Grammar.markRecursive_copy
    { grammar with rules := grammar.rules.map (⟨grammar, parents⟩ : Scope P).bindRule }
    hfresh hstays
  refine congrArg (Scope.mk · parents) (Eq.trans ?_ hmark)
  rw [Grammar.copy_eq]
  dsimp only
  rw [hrules]

/-- The probabilities of a copy are those of the grammar. -/
theorem normalize_copy [BranchWeight P] (scope : Scope P) (id : GrammarId) :
    (scope.copy id).normalize = scope.normalize.copy id := by
  have hrules : (scope.copy id).grammar.rules.map Rule.normalize =
      (scope.normalize.copy id).grammar.rules := by
    rw [copy, Grammar.copy_eq, copy, Grammar.copy_eq, normalize, Grammar.normalize]
    dsimp only
    rw [List.map_map, List.map_map]
    refine List.map_congr_left fun rule _ => ?_
    exact congrArg (fun body => { rule with body })
      (Expansion.withProbabilities_mapReferences shareOf (Reference.move scope.grammar.id id)
        rule.body)
  exact congrArg (fun rules => { scope with grammar := { scope.grammar with id, rules } }) hrules

end Scope

end SpeechGrammar
