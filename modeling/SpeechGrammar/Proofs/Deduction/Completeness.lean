import Mathlib.Data.List.ProdSigma
import SpeechGrammar.Proofs.Deduction.Search
import SpeechGrammar.Proofs.Grammar.Linking
import SpeechGrammar.Proofs.ExactProbability

/-!
# Derivations found and derivation trees

A rule is open at a token at most once along a branch of a tree, so there are
never more open rules than there are rules and places between tokens together,
and the search has room for all of them.  What a deduction lists are then the
tag sets of the derivation trees that consume all tokens, each once, with the
weight of such a tree as its score.
-/

namespace SpeechGrammar

variable {P W : Type}

namespace Scope

/-- Rules that are open, none twice at the same token, and how much room is left for others. -/
structure Roomy (scope : Scope P) (query : Query) (room : Nat) (opened : List (Target × Nat)) :
    Prop where
  nodup : opened.Nodup
  entered : ∀ entry ∈ opened, entry.1 ∈ scope.targets ∧ entry.2 ≤ query.tokens.length
  enough : scope.ruleCount * (query.tokens.length + 1) ≤ room + opened.length

/-- No more rules are open than there are rules and places between tokens together. -/
theorem length_le_of_entered {scope : Scope P} {query : Query} {opened : List (Target × Nat)}
    (hnodup : opened.Nodup)
    (hentered : ∀ entry ∈ opened, entry.1 ∈ scope.targets ∧ entry.2 ≤ query.tokens.length) :
    opened.length ≤ scope.ruleCount * (query.tokens.length + 1) := by
  have hsubset : opened ⊆ scope.targets ×ˢ List.range (query.tokens.length + 1) := by
    intro entry hentry
    obtain ⟨htarget, hplace⟩ := hentered entry hentry
    exact List.mem_product.mpr ⟨htarget, List.mem_range.mpr (Nat.lt_succ_of_le hplace)⟩
  calc
    opened.length ≤ (scope.targets ×ˢ List.range (query.tokens.length + 1)).length :=
      hnodup.length_le_of_subset hsubset
    _ = scope.ruleCount * (query.tokens.length + 1) := by
      rw [List.length_product, length_targets, List.length_range]

theorem Roomy.enter {scope : Scope P} {query : Query} {room : Nat} {opened : List (Target × Nat)}
    (hroomy : scope.Roomy query room opened) {target : Target} {rule : Rule P} {start : Nat}
    (hrule : scope.follow? target = some rule) (hstart : start ≤ query.tokens.length)
    (hnew : (target, start) ∉ opened) :
    ∃ left, room = left + 1 ∧ scope.Roomy query left ((target, start) :: opened) := by
  have hnodup : ((target, start) :: opened).Nodup := List.nodup_cons.mpr ⟨hnew, hroomy.nodup⟩
  have hentered : ∀ entry ∈ (target, start) :: opened,
      entry.1 ∈ scope.targets ∧ entry.2 ≤ query.tokens.length :=
    List.forall_mem_cons.mpr ⟨⟨mem_targets hrule, hstart⟩, hroomy.entered⟩
  have hlength := length_le_of_entered hnodup hentered
  have henough := hroomy.enough
  rw [List.length_cons] at hlength
  obtain ⟨left, rfl⟩ : ∃ left, room = left + 1 := ⟨room - 1, by omega⟩
  exact ⟨left, rfl, hnodup, hentered, by rw [List.length_cons]; omega⟩

variable [BranchWeight P] [ExactWeight W] [Logarithm P W]

theorem fitting_reference_iff {scope : Scope P} {query : Query} {opened : List (Target × Nat)}
    {link : Reference} {start : Nat} {tree : Tree P} :
    scope.Fitting query opened (.reference link) start tree ↔
      ∃ target rule body, link.target? = some target ∧ scope.follow? target = some rule ∧
        tree = .rule target body ∧ (target, start) ∉ opened ∧
        scope.Fitting query ((target, start) :: opened) rule.body start body := by
  constructor
  · rintro ⟨hderives, hfits⟩
    cases hderives with
    | reference htarget hrule hbody =>
        obtain ⟨hnew, hfitsBody⟩ := Tree.fits_rule_iff.mp hfits
        exact ⟨_, _, _, htarget, hrule, rfl, hnew, hbody, hfitsBody⟩
  · rintro ⟨target, rule, body, htarget, hrule, rfl, hnew, hbody, hfits⟩
    exact ⟨.reference htarget hrule hbody, Tree.fits_rule_iff.mpr ⟨hnew, hfits⟩⟩

/-- References carry matches on over their trees. -/
theorem carries_followReference {scope : Scope P} {query : Query} (room : Nat)
    {opened : List (Target × Nat)} (hroomy : scope.Roomy query room opened) (link : Reference) :
    Carries (W := W) query (scope.Fitting query opened (.reference link))
      (scope.followReference query room opened link) := by
  intro found hfound
  unfold followReference
  cases hlink : link.target? with
  | none =>
      refine Finds.none fun given _ tree htree => ?_
      obtain ⟨_, _, _, htarget, -⟩ := fitting_reference_iff.mp htree
      simp [hlink] at htarget
  | some target =>
      dsimp only
      split
      · rename_i hopen
        refine Finds.none fun given hgiven tree htree => ?_
        obtain rfl := List.mem_singleton.mp hgiven
        obtain ⟨_, _, _, htarget, -, -, hnew, -⟩ := fitting_reference_iff.mp htree
        obtain rfl := Option.some.inj (hlink.symm.trans htarget)
        exact hnew hopen
      · rename_i hnew
        cases hrule : scope.follow? target with
        | none =>
            refine Finds.none fun given _ tree htree => ?_
            obtain ⟨_, _, _, htarget, hfollow, -⟩ := fitting_reference_iff.mp htree
            obtain rfl := Option.some.inj (hlink.symm.trans htarget)
            simp [hrule] at hfollow
        | some rule =>
            obtain ⟨left, rfl, hleft⟩ := hroomy.enter hrule hfound hnew
            have hbody := carries_extend (W := W)
              (fun link => carries_followReference left hleft link) rule.body found hfound
            refine hbody.transfer (fun body hfitting => ?_) fun tree htree => ?_
            · exact ⟨.rule target body, fitting_reference_iff.mpr
                ⟨target, rule, body, hlink, hrule, rfl, hnew, hfitting⟩, rfl⟩
            · obtain ⟨other, otherRule, body, htarget, hfollow, rfl, -, hfitting⟩ :=
                fitting_reference_iff.mp htree
              obtain rfl := Option.some.inj (hlink.symm.trans htarget)
              obtain rfl := Option.some.inj (hrule.symm.trans hfollow)
              exact ⟨body, hfitting, rfl⟩

end Scope

/-! ## Derivations -/

/-- A derivation tree of a public rule that is searched for: it consumes all tokens. -/
structure Scope.Admits {P : Type} [BranchWeight P] (scope : Scope P) (query : Query)
    (rule : String) (tree : Tree P) : Prop where
  derives : scope.DerivesPublic rule tree
  spells : query.wordsMatch tree.words query.tokens = true
  consumes : tree.width = query.tokens.length
  guarded : tree.Guarded [] 0
  productive : tree.Productive

def assignedTags (assignments : List Assignment) (count : Nat) : TagSet :=
  .ofList ((assignments.filter (·.within (0, count))).map (·.tag))

namespace Derivation

variable {W : Type}

def same (first second : Derivation W) : Bool :=
  second.span == first.span && decide (second.tags = first.tags)

theorem same_eq_true_iff {first second : Derivation W} :
    same first second = true ↔ second.span = first.span ∧ second.tags = first.tags := by
  simp [same]

theorem firsts_eq_firstsBy (derivations : List (Derivation W)) :
    firsts derivations = firstsBy same derivations := rfl

theorem nodup_firsts (derivations : List (Derivation W)) :
    ((firsts derivations).map fun found => (found.span, found.tags)).Nodup := by
  rw [List.nodup_iff_pairwise_ne, List.pairwise_map, firsts_eq_firstsBy]
  refine (pairwise_firstsBy derivations).imp fun hdiffer heq => ?_
  obtain ⟨hspan, htags⟩ := Prod.mk.inj heq
  rw [same_eq_true_iff.mpr ⟨hspan, htags⟩] at hdiffer
  cases hdiffer

end Derivation

namespace Scope

variable [BranchWeight P] [ExactWeight W] [Logarithm P W]

/--
Tokens are matched if all that a public rule leads to can be used.  A deduction
lists the complete matches of the rule's body, none twice.
-/
theorem exists_of_deduce_eq_ok {scope : Scope P} {rule : String} {tokens : List String}
    {assignments : List Assignment} {policy : MatchPolicy} {deduction : Deduction W}
    (hdeduce : scope.deduce rule tokens assignments policy = .ok deduction) :
    ∃ target top, scope.grammar.public rule = .ok (target, top) ∧
      scope.unusableBelow? target = none ∧
      deduction.derivations = Derivation.firsts (complete tokens.length assignments
        (top.body.extend ⟨tokens, policy, scope.grammar.vocabulary⟩
          (scope.followReference ⟨tokens, policy, scope.grammar.vocabulary⟩
            (scope.ruleCount * (tokens.length + 1)) [(target, 0)]) .start)) := by
  rw [deduce] at hdeduce
  cases hpublic : scope.grammar.public rule with
  | error refusal =>
      rw [hpublic] at hdeduce
      cases hdeduce
  | ok found =>
      obtain ⟨target, top⟩ := found
      rw [hpublic] at hdeduce
      refine ⟨target, top, rfl, ?_⟩
      dsimp only [bind, Except.bind] at hdeduce
      split at hdeduce
      · cases hdeduce
      · rename_i husable
        obtain rfl := Except.ok.inj hdeduce
        exact ⟨husable, rfl⟩

/-- The body of a public rule carries the first match on over its trees that fit. -/
theorem finds_top {scope : Scope P} (query : Query) {rule : String} {target : Target}
    {top : Rule P} (hpublic : scope.grammar.public rule = .ok (target, top)) :
    Finds (W := W) (scope.Fitting query [(target, 0)] top.body) [.start]
      (top.body.extend query (scope.followReference query
        (scope.ruleCount * (query.tokens.length + 1)) [(target, 0)]) .start) := by
  have hroomy : scope.Roomy query (scope.ruleCount * (query.tokens.length + 1)) [(target, 0)] :=
    ⟨by simp,
      by simpa using mem_targets (follow?_of_public hpublic), Nat.le_add_right _ _⟩
  exact carries_extend (carries_followReference _ hroomy) top.body .start (Nat.zero_le _)

/-- The trees searched for are those of the rule's body that fit and consume all tokens. -/
theorem admits_iff {scope : Scope P} {query : Query} {rule : String} {target : Target}
    {top : Rule P} (hpublic : scope.grammar.public rule = .ok (target, top)) {tree : Tree P} :
    scope.Admits query rule tree ↔ ∃ body, tree = .rule target body ∧
      scope.Fitting query [(target, 0)] top.body 0 body ∧ body.width = query.tokens.length := by
  constructor
  · rintro ⟨⟨_, _, body, hother, rfl, hbody⟩, hspells, hconsumes, hguarded, hproductive⟩
    obtain ⟨rfl, rfl⟩ := Prod.mk.inj (Except.ok.inj (hpublic.symm.trans hother))
    obtain ⟨-, hfits⟩ := Tree.fits_rule_iff.mp
      (⟨by rwa [List.drop_zero], hguarded, hproductive⟩ : (Tree.rule target body).Fits query [] 0)
    exact ⟨body, rfl, ⟨hbody, hfits⟩, hconsumes⟩
  · rintro ⟨body, rfl, ⟨hbody, hfits⟩, hconsumes⟩
    have hrule : (Tree.rule target body).Fits query [] 0 :=
      Tree.fits_rule_iff.mpr ⟨List.not_mem_nil, hfits⟩
    have hspells := hrule.spells
    rw [List.drop_zero] at hspells
    exact ⟨⟨target, top, body, hpublic, rfl, hbody⟩, hspells, hconsumes, hrule.guarded,
      hrule.productive⟩

/-- Every complete match is a tree that is searched for, with the assigned tags. -/
theorem exists_admits_of_mem_complete {scope : Scope P} {query : Query} {rule : String}
    {target : Target} {top : Rule P} (hpublic : scope.grammar.public rule = .ok (target, top))
    {assignments : List Assignment} {partials : List (Partial W)}
    (hfinds : Finds (scope.Fitting query [(target, 0)] top.body) [.start] partials)
    {found : Derivation W}
    (hfound : found ∈ complete query.tokens.length assignments partials) :
    found.span = (0, query.tokens.length) ∧ ∃ tree, scope.Admits query rule tree ∧
      found.tags = tree.tags.union (assignedTags assignments query.tokens.length) ∧
      found.score = tree.weight := by
  obtain ⟨later, hlater, rfl⟩ := List.mem_map.mp hfound
  obtain ⟨hmem, hcount⟩ := List.mem_filter.mp hlater
  obtain ⟨_, hstart, body, hfitting, rfl⟩ := hfinds.sound later hmem
  obtain rfl := List.mem_singleton.mp hstart
  have hwidth : body.width = query.tokens.length := by
    simpa [Partial.past, Partial.start] using hcount
  refine ⟨rfl, .rule target body, (admits_iff hpublic).mpr ⟨body, rfl, hfitting, hwidth⟩, ?_, ?_⟩
  · simp [Partial.past, Partial.start, SortedSet.insertAll_eq_union, assignedTags]
  · simp [Partial.past, Partial.start]

/-- Every tree that is searched for has a complete match with its tags and the assigned ones. -/
theorem exists_mem_complete_of_admits {scope : Scope P} {query : Query} {rule : String}
    {target : Target} {top : Rule P} (hpublic : scope.grammar.public rule = .ok (target, top))
    (assignments : List Assignment) {partials : List (Partial W)}
    (hfinds : Finds (scope.Fitting query [(target, 0)] top.body) [.start] partials)
    {tree : Tree P} (htree : scope.Admits query rule tree) :
    ∃ found ∈ complete query.tokens.length assignments partials,
      found.tags = tree.tags.union (assignedTags assignments query.tokens.length) := by
  obtain ⟨body, rfl, hfitting, hwidth⟩ := (admits_iff hpublic).mp htree
  obtain ⟨later, hlater, hplace, htags⟩ :=
    hfinds.complete .start (List.mem_singleton_self _) body hfitting
  have hcount : later.consumed = query.tokens.length := by
    rw [hplace, ← hwidth]
    exact Nat.zero_add _
  refine ⟨_, List.mem_map.mpr ⟨later, List.mem_filter.mpr ⟨hlater, beq_iff_eq.mpr hcount⟩, rfl⟩, ?_⟩
  rw [htags]
  simp [Partial.past, Partial.start, SortedSet.insertAll_eq_union, assignedTags]

theorem exists_admits_of_mem_derivations {scope : Scope P} {rule : String}
    {tokens : List String} {assignments : List Assignment} {policy : MatchPolicy}
    {deduction : Deduction W}
    (hdeduce : scope.deduce rule tokens assignments policy = .ok deduction)
    {found : Derivation W} (hfound : found ∈ deduction.derivations) :
    found.span = (0, tokens.length) ∧
      ∃ tree, scope.Admits ⟨tokens, policy, scope.grammar.vocabulary⟩ rule tree ∧
        found.tags = tree.tags.union (assignedTags assignments tokens.length) ∧
        found.score = tree.weight := by
  obtain ⟨target, top, hpublic, -, hderivations⟩ := exists_of_deduce_eq_ok hdeduce
  have hfinds := finds_top (W := W) ⟨tokens, policy, scope.grammar.vocabulary⟩ hpublic
  rw [hderivations] at hfound
  exact exists_admits_of_mem_complete hpublic hfinds (mem_of_mem_firstsBy hfound)

/-- Something is found exactly if there is a tree that is searched for. -/
theorem derivations_ne_nil_iff {scope : Scope P} {rule : String} {tokens : List String}
    {assignments : List Assignment} {policy : MatchPolicy} {deduction : Deduction W}
    (hdeduce : scope.deduce rule tokens assignments policy = .ok deduction) :
    deduction.derivations ≠ [] ↔
      ∃ tree, scope.Admits ⟨tokens, policy, scope.grammar.vocabulary⟩ rule tree := by
  constructor
  · intro hsome
    obtain ⟨found, hfound⟩ := List.exists_mem_of_ne_nil _ hsome
    obtain ⟨-, tree, htree, -⟩ := exists_admits_of_mem_derivations hdeduce hfound
    exact ⟨tree, htree⟩
  · rintro ⟨tree, htree⟩
    obtain ⟨target, top, hpublic, -, hderivations⟩ := exists_of_deduce_eq_ok hdeduce
    have hfinds := finds_top (W := W) ⟨tokens, policy, scope.grammar.vocabulary⟩ hpublic
    rw [hderivations]
    obtain ⟨found, hfound, -⟩ :=
      exists_mem_complete_of_admits hpublic assignments hfinds htree
    obtain ⟨first, hfirst, -⟩ := exists_firstsBy_of_mem
      (fun _ => Derivation.same_eq_true_iff.mpr ⟨rfl, rfl⟩) hfound
    exact List.ne_nil_of_mem hfirst

/--
The tag sets of the derivations found are those of the derivation trees that
consume all tokens, together with the tags assigned from outside.  No two
derivations have the same span and tags, and each is scored like such a tree.
-/
theorem deduce_lists_admitted_trees {scope : Scope P} {rule : String} {tokens : List String}
    {assignments : List Assignment} {policy : MatchPolicy} {deduction : Deduction W}
    (hdeduce : scope.deduce rule tokens assignments policy = .ok deduction) :
    let query : Query := ⟨tokens, policy, scope.grammar.vocabulary⟩
    let assigned := assignedTags assignments tokens.length
    {tags | ∃ found ∈ deduction.derivations, found.tags = tags} =
        {tags | ∃ tree, scope.Admits query rule tree ∧ tree.tags.union assigned = tags} ∧
      (deduction.derivations.map fun found => (found.span, found.tags)).Nodup ∧
      ∀ found ∈ deduction.derivations, found.span = (0, tokens.length) ∧
        ∃ tree, scope.Admits query rule tree ∧ found.tags = tree.tags.union assigned ∧
          found.score = tree.weight := by
  intro query assigned
  obtain ⟨target, top, hpublic, -, hderivations⟩ := exists_of_deduce_eq_ok hdeduce
  have hfinds := finds_top (W := W) query hpublic
  refine ⟨?_, ?_, fun found => exists_admits_of_mem_derivations hdeduce⟩
  · ext tags
    constructor
    · rintro ⟨found, hfound, rfl⟩
      obtain ⟨-, tree, htree, htags, -⟩ := exists_admits_of_mem_derivations hdeduce hfound
      exact ⟨tree, htree, htags.symm⟩
    · rintro ⟨tree, htree, rfl⟩
      obtain ⟨found, hfound, htags⟩ :=
        exists_mem_complete_of_admits hpublic assignments hfinds htree
      obtain ⟨first, hfirst, hsame⟩ := exists_firstsBy_of_mem
        (fun _ => Derivation.same_eq_true_iff.mpr ⟨rfl, rfl⟩) hfound
      refine ⟨first, ?_, (Derivation.same_eq_true_iff.mp hsame).2.trans htags⟩
      rw [hderivations]
      exact hfirst
  · rw [hderivations]
    exact Derivation.nodup_firsts _

/-- A rule that refers to itself before any word, and otherwise repeats a tagged word. -/
def climbing : Scope ℚ where
  grammar := ({ id := ⟨0⟩ } : Grammar ℚ).push
    { name := "climb"
      isPublic := true
      isRecursive := true
      body := .alternation
        [⟨none, 1 / 2, .sequence [.reference ⟨"climb", some ⟨⟨0⟩, 0⟩⟩, .literal "up"]⟩,
          ⟨none, 1 / 2, .plus (.tagged (.literal "up") [⟨"step", none⟩])⟩] }

/--
Deducing `up up` gives one derivation, whose tags are those of an admitted tree and the assigned tag
`loud`.
-/
theorem deduce_climbing : ∃ deduction : Deduction (WithBot ℚ),
    climbing.deduce "climb" ["up", "up"] [⟨⟨"loud", none⟩, none⟩] {} = .ok deduction ∧
      deduction.derivations.map (fun found => found.tags.toList.map (·.label)) =
        [["loud", "step"]] ∧
      ∀ found ∈ deduction.derivations, found.span = (0, 2) ∧
        ∃ tree, climbing.Admits ⟨["up", "up"], {}, climbing.grammar.vocabulary⟩ "climb" tree ∧
          found.tags = tree.tags.union (assignedTags [⟨⟨"loud", none⟩, none⟩] 2) ∧
          found.score = tree.weight := by
  refine ⟨_, rfl, by decide +kernel, ?_⟩
  exact (deduce_lists_admitted_trees (rfl : climbing.deduce "climb" ["up", "up"]
    [⟨⟨"loud", none⟩, none⟩] {} = .ok _)).2.2

end Scope

end SpeechGrammar
