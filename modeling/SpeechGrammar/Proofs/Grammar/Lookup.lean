import SpeechGrammar.Proofs.Grammar.NameIndex
import SpeechGrammar.Grammar.Basic

/-!
# What names mean

The name of a reference is a rule name behind a last dot, or a rule name only.
It means the rule of that name in the nearest grammar that answers to the part
in front of the dot; where there is no dot every grammar answers.  As no
grammar has two rules of one name, there is only one such rule.  Binding finds
it, and lists the names that mean nothing.
-/

namespace SpeechGrammar

namespace Text

theorem cutLast?_eq_none_iff {cut : Char} {text : List Char} :
    cutLast? cut text = none ↔ cut ∉ text := by
  induction text with
  | nil => exact iff_of_true rfl List.not_mem_nil
  | cons char rest ih =>
      rw [cutLast?, List.mem_cons, not_or, ← ih]
      cases cutLast? cut rest with
      | none => simp [eq_comm]
      | some parts => simp

/-- A text is cut at the one place behind which the character does not occur. -/
theorem cutLast?_eq_some_iff {cut : Char} {text before after : List Char} :
    cutLast? cut text = some (before, after) ↔ text = before ++ cut :: after ∧ cut ∉ after := by
  refine ⟨eq_append_of_cutLast?, ?_⟩
  rintro ⟨rfl, habsent⟩
  induction before with
  | nil =>
      rw [List.nil_append, cutLast?, cutLast?_eq_none_iff.mpr habsent]
      exact if_pos rfl
  | cons char before ih => rw [List.cons_append, cutLast?, ih]

end Text

/-- What stands behind the last dot of a name, or the whole name if it has no dot. -/
def IsLastSegment (segment name : String) : Prop :=
  '.' ∉ segment.toList ∧ (segment = name ∨ ∃ qualifier, name = qualifier ++ "." ++ segment)

theorem eq_append_dot_iff {name qualifier segment : String} :
    name = qualifier ++ "." ++ segment ↔
      name.toList = qualifier.toList ++ '.' :: segment.toList := by
  rw [← String.toList_inj, String.toList_append, String.toList_append, List.append_assoc]
  rfl

theorem isLastSegment_iff {segment name : String} :
    IsLastSegment segment name ↔ lastSegment name = segment := by
  rw [lastSegment]
  constructor
  · rintro ⟨habsent, rfl | ⟨qualifier, hname⟩⟩
    · rw [Text.cutLast?_eq_none_iff.mpr habsent]
    · rw [Text.cutLast?_eq_some_iff.mpr ⟨eq_append_dot_iff.mp hname, habsent⟩]
      exact String.ofList_toList
  · rintro rfl
    cases hcut : Text.cutLast? '.' name.toList with
    | none => exact ⟨Text.cutLast?_eq_none_iff.mp hcut, .inl rfl⟩
    | some parts =>
        obtain ⟨before, after⟩ := parts
        obtain ⟨hname, habsent⟩ := Text.cutLast?_eq_some_iff.mp hcut
        refine ⟨by rwa [String.toList_ofList], .inr ⟨String.ofList before, ?_⟩⟩
        rw [eq_append_dot_iff, String.toList_ofList, String.toList_ofList, hname]

theorem Reference.ruleName_eq (link : Reference) : link.ruleName = lastSegment link.name := by
  rw [ruleName, qualified?, lastSegment]
  cases Text.cutLast? '.' link.name.toList <;> rfl

theorem Reference.qualified?_eq_some_iff {link : Reference} {qualifier segment : String} :
    link.qualified? = some (qualifier, segment) ↔
      link.name = qualifier ++ "." ++ segment ∧ '.' ∉ segment.toList := by
  rw [qualified?, Option.map_eq_some_iff, eq_append_dot_iff, ← Text.cutLast?_eq_some_iff]
  constructor
  · rintro ⟨⟨before, after⟩, hcut, hparts⟩
    obtain ⟨rfl, rfl⟩ := Prod.mk.inj hparts
    rwa [String.toList_ofList, String.toList_ofList]
  · intro hcut
    exact ⟨_, hcut, Prod.ext String.ofList_toList String.ofList_toList⟩

/-! ## Looking up names -/

variable {P : Type}

/-- Whether a name may mean a rule of a grammar: what is in front of its last dot names that. -/
def Grammar.Answers (grammar : Grammar P) (name : String) : Prop :=
  ∀ qualifier segment, name = qualifier ++ "." ++ segment → '.' ∉ segment.toList →
    ∃ own last, grammar.name? = some own ∧ IsLastSegment last own ∧ IsLastSegment last qualifier

theorem Grammar.admits_iff {grammar : Grammar P} {link : Reference} :
    grammar.admits (link.qualified?.map Prod.fst) = true ↔ grammar.Answers link.name := by
  have hanswers (own wanted : String) : answersTo own wanted = true ↔
      ∃ last, IsLastSegment last own ∧ IsLastSegment last wanted := by
    simp only [answersTo, isLastSegment_iff, Bool.or_eq_true, beq_iff_eq]
    constructor
    · rintro (rfl | heq)
      · exact ⟨_, rfl, rfl⟩
      · exact ⟨_, heq, rfl⟩
    · rintro ⟨last, rfl, heq⟩
      exact .inr heq.symm
  cases hqualified : link.qualified? with
  | none =>
      refine iff_of_true (by simp [admits]) fun qualifier segment hname habsent => ?_
      rw [Reference.qualified?_eq_some_iff.mpr ⟨hname, habsent⟩] at hqualified
      cases hqualified
  | some parts =>
      obtain ⟨wanted, rule⟩ := parts
      have hparts := Reference.qualified?_eq_some_iff.mp hqualified
      have honly : grammar.Answers link.name ↔
          ∃ own last, grammar.name? = some own ∧ IsLastSegment last own ∧
            IsLastSegment last wanted := by
        refine ⟨fun hall => hall wanted rule hparts.1 hparts.2, fun hsome => ?_⟩
        intro qualifier segment hname habsent
        obtain ⟨rfl, -⟩ := Prod.mk.inj (Option.some.inj
          ((Reference.qualified?_eq_some_iff.mpr ⟨hname, habsent⟩).symm.trans hqualified))
        exact hsome
      rw [honly, Option.map_some]
      cases hown : grammar.name? with
      | none => simp [admits, hown]
      | some own => simp [admits, hown, hanswers]

/-- The rule that a name means: it has the name's last segment, in the nearest grammar answering. -/
def Scope.Nearest (scope : Scope P) (name : String) (target : Target) : Prop :=
  ∃ nearer grammar farther segment, scope.chain = nearer ++ grammar :: farther ∧
    IsLastSegment segment name ∧ grammar.Answers name ∧ grammar.id = target.grammar ∧
    grammar.ruleNames[target.index]? = some segment ∧
    ∀ other ∈ nearer, other.Answers name → segment ∉ other.ruleNames

theorem Grammar.publicRule?_eq_some_iff {grammar : Grammar P} {name : String} {index : Nat}
    {rule : Rule P} : grammar.publicRule? name = some (index, rule) ↔
      grammar.ruleIndex? name = some index ∧ grammar.rules[index]? = some rule ∧
        rule.isPublic = true := by
  rw [Grammar.publicRule?]
  cases grammar.ruleIndex? name with
  | none =>
      constructor
      · rintro ⟨⟩
      · rintro ⟨⟨⟩, -⟩
  | some place =>
      dsimp only
      rw [Option.some_inj]
      cases hfound : grammar.rules[place]? with
      | none =>
          constructor
          · rintro ⟨⟩
          · rintro ⟨rfl, hrule, -⟩
            rw [hfound] at hrule
            cases hrule
      | some found =>
          dsimp only
          constructor
          · intro heq
            split at heq
            · rename_i hpublic
              obtain ⟨rfl, rfl⟩ := Prod.mk.inj (Option.some.inj heq)
              exact ⟨rfl, hfound, hpublic⟩
            · cases heq
          · rintro ⟨rfl, hrule, hpublic⟩
            obtain rfl := Option.some.inj (hfound.symm.trans hrule)
            exact if_pos hpublic

theorem Grammar.public_eq_ok_iff {grammar : Grammar P} {name : String} {target : Target}
    {top : Rule P} : grammar.public name = .ok (target, top) ↔
      target.grammar = grammar.id ∧ grammar.ruleIndex? name = some target.index ∧
        grammar.rules[target.index]? = some top ∧ top.isPublic = true := by
  rw [Grammar.public, ← Grammar.publicRule?_eq_some_iff]
  cases grammar.publicRule? name with
  | none =>
      constructor
      · rintro ⟨⟩
      · rintro ⟨-, ⟨⟩⟩
  | some found =>
      obtain ⟨index, rule⟩ := found
      obtain ⟨id, place⟩ := target
      simp [and_assoc, eq_comm]

theorem Grammar.Indexed.targetOf?_eq_none_iff {grammar : Grammar P} (hindexed : grammar.Indexed)
    {name : String} : grammar.targetOf? name = none ↔ name ∉ grammar.ruleNames := by
  rw [targetOf?, Option.map_eq_none_iff, hindexed.ruleIndex?_eq_none_iff]

theorem Grammar.Indexed.targetOf?_eq_some_iff {grammar : Grammar P} (hindexed : grammar.Indexed)
    {name : String} {target : Target} :
    grammar.targetOf? name = some target ↔
      grammar.id = target.grammar ∧ grammar.ruleNames[target.index]? = some name := by
  rw [targetOf?, Option.map_eq_some_iff]
  simp only [hindexed.ruleIndex?_eq_some_iff]
  constructor
  · rintro ⟨index, hindex, rfl⟩
    exact ⟨rfl, hindex⟩
  · rintro ⟨hid, hindex⟩
    exact ⟨target.index, hindex, by rw [hid]⟩

theorem findSome?_filter {α β : Type} (test : α → Bool) (found : α → Option β) (values : List α) :
    (values.filter test).findSome? found =
      values.findSome? fun value => if test value then found value else none := by
  rw [← List.head?_filterMap, List.filterMap_filter, List.head?_filterMap]

/-- Looking up finds the rule that a name means. -/
theorem Scope.Indexed.lookup?_eq_some_iff {scope : Scope P} (hindexed : scope.Indexed)
    {link : Reference} {target : Target} :
    scope.lookup? link = some target ↔ scope.Nearest link.name target := by
  rw [lookup?, findSome?_filter, List.findSome?_eq_some_iff, Nearest]
  refine exists_congr fun nearer => exists_congr fun grammar => exists_congr fun farther => ?_
  rw [Reference.ruleName_eq]
  constructor
  · rintro ⟨hchain, hfound, hnearer⟩
    have hgrammar : grammar ∈ scope.chain := hchain ▸ List.mem_append_right _ (.head _)
    have hbefore : ∀ other ∈ nearer, other.Indexed := fun other hother =>
      hindexed other (hchain ▸ List.mem_append_left _ hother)
    split at hfound
    · rename_i hadmits
      obtain ⟨hid, hname⟩ := (hindexed grammar hgrammar).targetOf?_eq_some_iff.mp hfound
      refine ⟨_, hchain, isLastSegment_iff.mpr rfl, Grammar.admits_iff.mp hadmits, hid, hname,
        fun other hother hanswers => ?_⟩
      have hnone := hnearer other hother
      rw [if_pos (Grammar.admits_iff.mpr hanswers)] at hnone
      exact (hbefore other hother).targetOf?_eq_none_iff.mp hnone
    · cases hfound
  · rintro ⟨segment, hchain, hsegment, hanswers, hid, hname, hnearer⟩
    have hgrammar : grammar ∈ scope.chain := hchain ▸ List.mem_append_right _ (.head _)
    have hbefore : ∀ other ∈ nearer, other.Indexed := fun other hother =>
      hindexed other (hchain ▸ List.mem_append_left _ hother)
    obtain rfl := isLastSegment_iff.mp hsegment
    refine ⟨hchain, ?_, fun other hother => ?_⟩
    · rw [if_pos (Grammar.admits_iff.mpr hanswers)]
      exact (hindexed grammar hgrammar).targetOf?_eq_some_iff.mpr ⟨hid, hname⟩
    · split
      · rename_i hadmits
        exact (hbefore other hother).targetOf?_eq_none_iff.mpr
          (hnearer other hother (Grammar.admits_iff.mp hadmits))
      · rfl

/-- Looking up finds something if any grammar that answers has a rule of the name. -/
theorem Scope.Indexed.isSome_lookup?_iff {scope : Scope P} (hindexed : scope.Indexed)
    {link : Reference} :
    (scope.lookup? link).isSome = true ↔ ∃ grammar ∈ scope.chain, ∃ segment ∈ grammar.ruleNames,
      IsLastSegment segment link.name ∧ grammar.Answers link.name := by
  rw [lookup?, findSome?_filter, List.findSome?_isSome_iff]
  refine exists_congr fun grammar => and_congr_right fun hgrammar => ?_
  rw [Reference.ruleName_eq, ← Grammar.admits_iff]
  simp only [isLastSegment_iff]
  split
  · rename_i hadmits
    rw [← Option.ne_none_iff_isSome, ne_eq,
      (hindexed grammar hgrammar).targetOf?_eq_none_iff, not_not]
    exact ⟨fun hmem => ⟨_, hmem, rfl, hadmits⟩, fun ⟨segment, hmem, hname, _⟩ => hname ▸ hmem⟩
  · rename_i hrefused
    exact iff_of_false (by simp) fun ⟨_, _, _, hadmits⟩ => hrefused hadmits

/-- Later repetitions are left out one by one. -/
theorem distinct_eq_eraseDups {α : Type} [DecidableEq α] (values : List α) :
    distinct values = values.eraseDups := by
  have hkept : ∀ kept : List α,
      values.foldl (fun kept value => if value ∈ kept then kept else kept ++ [value]) kept =
        kept ++ (values.filter (· ∉ kept)).eraseDups := by
    induction values with
    | nil => simp
    | cons value values ih =>
        intro kept
        rw [List.foldl_cons, ih]
        by_cases hmem : value ∈ kept
        · rw [if_pos hmem, List.filter_cons_of_neg (by simpa using hmem)]
        · rw [if_neg hmem, List.filter_cons_of_pos (by simpa using hmem), List.eraseDups_cons,
            List.filter_filter, List.append_assoc, List.singleton_append]
          congr 3
          refine List.filter_congr fun other _ => ?_
          simp [not_or, and_comm, beq_eq_decide]
  rw [distinct, hkept, List.nil_append]
  congr 1
  exact List.filter_eq_self.mpr (by simp)

end SpeechGrammar
