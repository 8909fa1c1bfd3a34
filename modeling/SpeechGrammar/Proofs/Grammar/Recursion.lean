import SpeechGrammar.Proofs.Components
import SpeechGrammar.Proofs.Grammar.Prepared
import SpeechGrammar.Proofs.ExactProbability

/-!
# Recursive rules

The rules of a grammar are the nodes of a graph, in which a rule leads to those
of the same grammar that its references are bound to.  Binding marks exactly
the rules on the cycles of this graph as recursive.  What a reference means in
a grammar that is inherited from is not part of the graph.
-/

namespace SpeechGrammar

variable {P : Type}

def Grammar.RefersTo (grammar : Grammar P) (first second : Nat) : Prop :=
  ∃ rule link, grammar.rules[first]? = some rule ∧ link ∈ rule.body.references ∧
    link.target? = some ⟨grammar.id, second⟩

namespace Grammar

variable {grammar : Grammar P}

theorem mem_localSuccessors_iff {first second : Nat} :
    second ∈ grammar.localSuccessors first ↔ grammar.RefersTo first second := by
  rw [localSuccessors]
  cases hrule : grammar.rules[first]? with
  | none => simp [RefersTo, hrule]
  | some rule =>
      simp only [List.filterMap_filterMap, List.mem_filterMap, Option.bind_eq_some_iff]
      constructor
      · rintro ⟨link, hlink, target, htarget, hlocal⟩
        split at hlocal
        · rename_i hid
          obtain rfl := Option.some.inj hlocal
          exact ⟨rule, link, hrule, hlink, by rw [htarget, ← hid]⟩
        · cases hlocal
      · rintro ⟨found, link, hfound, hlink, htarget⟩
        obtain rfl := Option.some.inj (hrule.symm.trans hfound)
        exact ⟨link, hlink, _, htarget, if_pos rfl⟩

theorem localSuccessors_eq_nil {index : Nat} (hindex : index ∉ List.range grammar.rules.length) :
    grammar.localSuccessors index = [] := by
  rw [List.mem_range, Nat.not_lt] at hindex
  rw [localSuccessors, List.getElem?_eq_none hindex]

/-- The search from all rules finds those that lie on cycles. -/
theorem mem_cyclicRules_iff {index : Nat} (hindex : index < grammar.rules.length) :
    index ∈ grammar.cyclicRules ↔ Relation.TransGen grammar.RefersTo index index := by
  have hrefers : grammar.RefersTo = fun first second => second ∈ grammar.localSuccessors first :=
    funext₂ fun _ _ => propext mem_localSuccessors_iff.symm
  have hallowance : (List.range grammar.rules.length).length < grammar.rules.length + 1 := by
    rw [List.length_range]
    exact Nat.lt_succ_self _
  rw [hrefers]
  exact Graph.mem_cyclic_iff (fun _ => localSuccessors_eq_nil) hallowance
    (List.mem_range.mpr hindex)

theorem refersTo_markRecursive (grammar : Grammar P) :
    grammar.markRecursive.RefersTo = grammar.RefersTo := by
  refine funext₂ fun first second => propext ⟨?_, ?_⟩
  · rintro ⟨rule, link, hrule, hlink, htarget⟩
    rw [markRecursive, List.getElem?_mapIdx, Option.map_eq_some_iff] at hrule
    obtain ⟨before, hbefore, rfl⟩ := hrule
    exact ⟨before, link, hbefore, hlink, htarget⟩
  · rintro ⟨rule, link, hrule, hlink, htarget⟩
    refine ⟨{ rule with isRecursive := grammar.cyclicRules.contains first }, link, ?_, hlink,
      htarget⟩
    rw [markRecursive, List.getElem?_mapIdx, hrule, Option.map_some]

theorem isRecursive_markRecursive_iff {index : Nat} {rule : Rule P}
    (hrule : grammar.markRecursive.rules[index]? = some rule) :
    rule.isRecursive = true ↔ Relation.TransGen grammar.markRecursive.RefersTo index index := by
  rw [refersTo_markRecursive]
  rw [markRecursive, List.getElem?_mapIdx, Option.map_eq_some_iff] at hrule
  obtain ⟨before, hbefore, rfl⟩ := hrule
  obtain ⟨hindex, -⟩ := List.getElem?_eq_some_iff.mp hbefore
  rw [← mem_cyclicRules_iff hindex]
  exact List.contains_iff_mem

end Grammar

/--
In a grammar whose references have been bound, the rules that are marked as
recursive are those from which references to rules of the grammar itself lead
back to them.
-/
theorem Scope.isRecursive_resolve_iff (scope : Scope P) {index : Nat} {rule : Rule P}
    (hrule : scope.resolve.grammar.rules[index]? = some rule) :
    rule.isRecursive = true ↔
      Relation.TransGen scope.resolve.grammar.RefersTo index index :=
  Grammar.isRecursive_markRecursive_iff hrule

def daysText : String :=
  "public <day> = <night> <dawn>; <night> = <day> | stars; <dawn> = <night>; <year> = <day>;"

def days : Scope ℚ := (Scope.parseLenient ⟨0⟩ daysText none).1

/-- In `days` the rule `<dawn>` leads back to itself, and `<year>` does not. -/
theorem days_come_back : Relation.TransGen days.resolve.grammar.RefersTo 2 2 ∧
    ¬Relation.TransGen days.resolve.grammar.RefersTo 3 3 := by
  have hmarks : days.resolve.grammar.rules[2]?.map (·.isRecursive) = some true ∧
      days.resolve.grammar.rules[3]?.map (·.isRecursive) = some false := by
    decide +kernel
  obtain ⟨dawn, hdawn, hmarked⟩ := Option.map_eq_some_iff.mp hmarks.1
  obtain ⟨year, hyear, hunmarked⟩ := Option.map_eq_some_iff.mp hmarks.2
  constructor
  · exact (days.isRecursive_resolve_iff hdawn).mp hmarked
  · intro hcycle
    have hagain := (days.isRecursive_resolve_iff hyear).mpr hcycle
    exact Bool.false_ne_true (hunmarked.symm.trans hagain)

end SpeechGrammar
