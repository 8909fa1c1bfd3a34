import SpeechGrammar.Proofs.Deduction.Completeness
import SpeechGrammar.Proofs.Deduction.Reweighing
import SpeechGrammar.Proofs.Derivation.Checking

/-!
# What left recursion loses

A rule is not entered again at the token where it is being matched, so tokens
are missed if all their trees climb: if in each of them a rule begins with
itself and goes on behind that.  All other trees can be straightened, and the
straight ones are searched for.  Where no rule begins with itself no tree
climbs, and nothing is missed.
-/

namespace SpeechGrammar

variable {P W : Type} [BranchWeight P]

open Expansion (Reaches)

/-- Expanding an expansion can come to a reference before any word. -/
inductive Expansion.Begins (scope : Scope P) (link : Reference) : Expansion P → Prop where
  | here : Begins scope link (.reference link)
  | head {item : Expansion P} (items : List (Expansion P)) (hitem : Begins scope link item) :
      Begins scope link (.sequence (item :: items))
  | tail {item : Expansion P} {tree : Tree P} {items : List (Expansion P)}
      (htree : Derives scope item tree) (hsilent : tree.width = 0)
      (hitems : Begins scope link (.sequence items)) :
      Begins scope link (.sequence (item :: items))
  | alternation {branches : List (Branch P (Expansion P))} {branch : Branch P (Expansion P)}
      (hmem : branch ∈ branches) (hpositive : 0 < branch.probability)
      (hbody : Begins scope link branch.body) : Begins scope link (.alternation branches)
  | repetition {body : Expansion P} (least : Nat) {most? : Option Nat} (hmost : most? ≠ some 0)
      (hbody : Begins scope link body) : Begins scope link (.repetition body least most?)
  | optional {body : Expansion P} (hbody : Begins scope link body) :
      Begins scope link (.optional body)
  | tagged {body : Expansion P} (tags : List Tag) (hbody : Begins scope link body) :
      Begins scope link (.tagged body tags)

namespace Scope

def Begins (scope : Scope P) (first second : Target) : Prop :=
  ∃ rule link, scope.follow? first = some rule ∧ rule.body.Begins scope link ∧
    link.target? = some second

/-- A rule can come to itself again before any word. -/
def LeftRecursive (scope : Scope P) (target : Target) : Prop :=
  Relation.TransGen scope.Begins target target

end Scope

/-- An expansion begins with a rule, or with one that begins with it in the end. -/
def Expansion.Precedes (scope : Scope P) (expansion : Expansion P) (target : Target) : Prop :=
  ∃ link next, expansion.Begins scope link ∧ link.target? = some next ∧
    Relation.ReflTransGen scope.Begins next target

/-- An expansion comes to a rule, or to one that leads to it. -/
def Expansion.Leads (scope : Scope P) (expansion : Expansion P) (target : Target) : Prop :=
  ∃ link next, Reaches (.reference link) expansion ∧ link.target? = some next ∧
    scope.Leads next target

section Occurrences

variable {scope : Scope P} {target : Target} {body tree : Tree P} {expansion : Expansion P}
  {offset : Nat}

open SpeechGrammar.Tree (Occurs occurs_cons_iff)

theorem Expansion.Precedes.imp {part : Expansion P} (hprecedes : part.Precedes scope target)
    (hbegins : ∀ link, part.Begins scope link → expansion.Begins scope link) :
    expansion.Precedes scope target :=
  let ⟨link, next, hlink, hnext, hchain⟩ := hprecedes
  ⟨link, next, hbegins link hlink, hnext, hchain⟩

theorem Expansion.Leads.imp {part : Expansion P} (hleads : part.Leads scope target)
    (hreaches : ∀ link, Reaches (.reference link) part → Reaches (.reference link) expansion) :
    expansion.Leads scope target :=
  let ⟨link, next, hlink, hnext, hchain⟩ := hleads
  ⟨link, next, hreaches link hlink, hnext, hchain⟩

/-- A sequence begins with what its items begin with, behind items without words. -/
theorem precedes_items {items : List (Expansion P)} {trees : List (Tree P)}
    (hderives : Derives scope (.sequence items) (.sequence trees))
    (hoccurs : Occurs target body 0 (.sequence trees))
    (hparts : ∀ item tree, (item, tree) ∈ items.zip trees → Occurs target body 0 tree →
      item.Precedes scope target) :
    Expansion.Precedes scope (.sequence items) target := by
  induction items generalizing trees with
  | nil =>
      obtain rfl := Derives.sequence_nil_iff.mp hderives
      exact (Tree.not_occurs_nil hoccurs).elim
  | cons item items ih =>
      obtain ⟨tree, trees, rfl, htree, hrest⟩ := Derives.sequence_cons_iff.mp hderives
      rcases occurs_cons_iff.mp hoccurs with hitem | ⟨behind, hsum, hitems⟩
      · exact (hparts item tree (List.mem_cons_self ..) hitem).imp fun _ => .head items
      · obtain ⟨hsilent, rfl⟩ : tree.width = 0 ∧ behind = 0 := by omega
        exact (ih hrest hitems fun other otherTree hmem =>
          hparts other otherTree (List.mem_cons_of_mem _ hmem)).imp fun _ => .tail htree hsilent

/-- A rule that occurs in a tree before any word is one that the expansion precedes. -/
theorem Tree.Occurs.precedes (hoccurs : Occurs target body offset tree) (hfront : offset = 0)
    (hderives : Derives scope expansion tree) : expansion.Precedes scope target := by
  induction hderives generalizing offset with
  | literal text => cases hoccurs
  | @reference link other rule tree htarget hrule hbody ih =>
      cases hoccurs with
      | here => exact ⟨link, _, .here, htarget, .refl⟩
      | rule _ hinner =>
          obtain ⟨inner, next, hbegins, hnext, hchain⟩ := ih hinner hfront
          exact ⟨link, other, .here, htarget, .head ⟨rule, inner, hrule, hbegins, hnext⟩ hchain⟩
  | sequence hlength hitems ih =>
      subst hfront
      exact precedes_items (.sequence hlength hitems) hoccurs fun item tree hmem hinner =>
        ih item tree hmem hinner rfl
  | alternation hmem hpositive _ ih =>
      cases hoccurs with
      | branch _ hinner => exact (ih hinner hfront).imp fun _ => .alternation hmem hpositive
  | @repetition body least most? trees _ hmost _ ih =>
      cases hoccurs with
      | iterations _ hitems =>
          obtain ⟨tree, htree, place, hle, hplace⟩ := hitems.exists_item
          exact (ih tree htree hplace (by omega)).imp fun _ =>
            .repetition least (most_ne_zero_of_mem hmost htree)
  | optional _ ih =>
      refine (ih hoccurs hfront).imp fun link hbegins => ?_
      cases hbegins with
      | repetition _ _ hbody => exact .optional hbody
  | tagged _ ih =>
      cases hoccurs with
      | tagged _ hinner => exact (ih hinner hfront).imp fun _ => .tagged _

theorem Tree.Occurs.leads (hoccurs : Occurs target body offset tree)
    (hderives : Derives scope expansion tree) : expansion.Leads scope target := by
  induction hderives generalizing offset with
  | literal text => cases hoccurs
  | @reference link other rule tree htarget hrule hbody ih =>
      cases hoccurs with
      | here => exact ⟨link, _, .here, htarget, .refl⟩
      | rule _ hinner =>
          obtain ⟨inner, next, hreaches, hnext, hchain⟩ := ih hinner
          exact ⟨link, other, .here, htarget, .head ⟨rule, inner, hrule, hreaches, hnext⟩ hchain⟩
  | sequence hlength _ ih =>
      obtain ⟨tree, htree, place, -, hplace⟩ := hoccurs.exists_item
      obtain ⟨item, hitem, hpair⟩ := exists_zip_of_mem_right hlength htree
      exact (ih item tree hpair hplace).imp fun _ => .sequence hitem
  | alternation hmem hpositive _ ih =>
      cases hoccurs with
      | branch _ hinner => exact (ih hinner).imp fun _ => .alternation hmem hpositive
  | @repetition body least most? trees _ hmost _ ih =>
      cases hoccurs with
      | iterations _ hitems =>
          obtain ⟨tree, htree, place, -, hplace⟩ := hitems.exists_item
          exact (ih tree htree hplace).imp fun _ =>
            .repetition least (most_ne_zero_of_mem hmost htree)
  | optional _ ih => exact (ih hoccurs).imp fun _ hreaches =>
      Expansion.reaches_optional hreaches (by simp)
  | tagged _ ih =>
      cases hoccurs with
      | tagged _ hinner => exact (ih hinner).imp fun _ => .tagged _

theorem Tree.Climbs.exists_leftRecursive (hclimbs : tree.Climbs)
    (hderives : Derives scope expansion tree) :
    ∃ target, expansion.Leads scope target ∧ scope.LeftRecursive target := by
  obtain ⟨target, upper, lower, offset, hupper, hlower, -⟩ := hclimbs
  obtain ⟨rule, hrule, hbody⟩ := hupper.derives hderives
  obtain ⟨link, next, hbegins, hnext, hchain⟩ := hlower.precedes rfl hbody
  have hfirst : scope.Begins target next := ⟨rule, link, hrule, hbegins, hnext⟩
  exact ⟨target, hupper.leads hderives, .head' hfirst hchain⟩

end Occurrences

/-! ## Deductions -/

/-- Scores that nothing is added to. -/
@[reducible] def unscored (P : Type) [BranchWeight P] : Logarithm P (WithBot ℤ) where
  ln _ := 0
  scale _ score := score
  likelihood probability _ := probability

namespace Scope

variable {scope : Scope P} {rule : String} {tokens : List String}

/-- Whichever way scores are kept, something is found if there is a tree that is searched for. -/
theorem derivations_ne_nil_iff_exists_admits [LogWeight W] [Logarithm P W]
    {assignments : List Assignment} {policy : MatchPolicy} {deduction : Deduction W}
    (hdeduce : scope.deduce rule tokens assignments policy = .ok deduction) :
    deduction.derivations ≠ [] ↔
      ∃ tree, scope.Admits ⟨tokens, policy, scope.grammar.vocabulary⟩ rule tree := by
  let := unscored P
  have hchange : Reweighs P fun _ : W => (0 : WithBot ℤ) := ⟨rfl, fun _ _ => (add_zero 0).symm⟩
  have hunscored := deduce_reweigh hchange scope rule tokens assignments policy
  rw [hdeduce, Except.map] at hunscored
  rw [← derivations_ne_nil_iff hunscored]
  exact not_congr List.map_eq_nil_iff.symm

/-- A tree is searched for exactly if some tree with words for all tokens does not climb. -/
theorem exists_admits_iff_exists_level {query : Query} :
    (∃ tree, scope.Admits query rule tree) ↔ ∃ tree, scope.DerivesPublic rule tree ∧
      query.wordsMatch tree.words query.tokens = true ∧ tree.width = query.tokens.length ∧
      ¬ tree.Climbs := by
  constructor
  · rintro ⟨tree, htree⟩
    exact ⟨tree, htree.derives, htree.spells, htree.consumes,
      Tree.not_climbs_of_guarded htree.guarded⟩
  · rintro ⟨tree, htree, hspells, hconsumes, hlevel⟩
    obtain ⟨target, top, -, hpublic, -⟩ := id htree
    obtain ⟨straight, hstraight, hstraightens⟩ :=
      ((derivesPublic_iff hpublic).mp htree).exists_straightens hlevel
    exact ⟨straight, (derivesPublic_iff hpublic).mpr hstraight, hstraightens.words ▸ hspells,
      hstraightens.width.trans hconsumes, hstraightens.guarded, hstraightens.productive⟩

/--
Tokens have a derivation exactly if the rule has a tree that consumes all of
them and does not climb: no rule comes up again below itself at the same token
with fewer tokens than above.
-/
theorem deduces_iff_exists_level_tree [LogWeight W] [Logarithm P W]
    {assignments : List Assignment} {policy : MatchPolicy} {deduction : Deduction W}
    (hdeduce : scope.deduce rule tokens assignments policy = .ok deduction) :
    let query : Query := ⟨tokens, policy, scope.grammar.vocabulary⟩
    deduction.derivations ≠ [] ↔ ∃ tree, scope.DerivesPublic rule tree ∧
      query.wordsMatch tree.words tokens = true ∧ tree.width = tokens.length ∧ ¬ tree.Climbs := by
  intro query
  rw [derivations_ne_nil_iff_exists_admits hdeduce]
  exact exists_admits_iff_exists_level

/-- Nothing is missed where a rule leads to no left-recursive one. -/
theorem deduces_iff_exists_tree_of_not_leftRecursive [LogWeight W] [Logarithm P W]
    {target : Target} {top : Rule P} (hpublic : scope.grammar.public rule = .ok (target, top))
    (hproper : ∀ other, scope.Leads target other → ¬ scope.LeftRecursive other)
    {assignments : List Assignment} {policy : MatchPolicy} {deduction : Deduction W}
    (hdeduce : scope.deduce rule tokens assignments policy = .ok deduction) :
    let query : Query := ⟨tokens, policy, scope.grammar.vocabulary⟩
    deduction.derivations ≠ [] ↔ ∃ tree, scope.DerivesPublic rule tree ∧
      query.wordsMatch tree.words tokens = true ∧ tree.width = tokens.length := by
  intro query
  rw [derivations_ne_nil_iff_exists_admits hdeduce, exists_admits_iff_exists_level]
  constructor
  · rintro ⟨tree, htree, hspells, hconsumes, -⟩
    exact ⟨tree, htree, hspells, hconsumes⟩
  · rintro ⟨tree, htree, hspells, hconsumes⟩
    refine ⟨tree, htree, hspells, hconsumes, fun hclimbs => ?_⟩
    obtain ⟨other, ⟨link, next, hreaches, hnext, hleads⟩, hrecursive⟩ :=
      hclimbs.exists_leftRecursive ((derivesPublic_iff hpublic).mp htree)
    cases hreaches with
    | here =>
        obtain rfl := Option.some.inj hnext
        exact hproper other hleads hrecursive

def crowdText : String := "public <crowd> = <crowd> more | more;"

def crowd : Scope ℚ := (parseLenient ⟨0⟩ crowdText none).1

/-- A tree of the words `more more`. -/
def crowdTree : Tree ℚ :=
  .rule ⟨⟨0⟩, 0⟩ (.branch (1 / 2) (.sequence
    [.rule ⟨⟨0⟩, 0⟩ (.branch (1 / 2) (.word "more")), .word "more"]))

/-- `crowdTree` climbs, and `<crowd>` has a tree of one word that does not. -/
theorem crowd_climbs : crowdTree.Climbs ∧
    ∃ tree, crowd.DerivesPublic "crowd" tree ∧ tree.width = 1 ∧ ¬ tree.Climbs := by
  obtain ⟨empty, hempty, hnone⟩ := exists_of_toOption_map_eq_some
    (by decide +kernel : ((crowd.deduce "crowd" ["more", "more"] [] {} :
      Except _ (Deduction (WithBot ℚ))).map (·.derivations.length)).toOption = some 0)
  obtain ⟨found, hfound, hone⟩ := exists_of_toOption_map_eq_some
    (by decide +kernel : ((crowd.deduce "crowd" ["more"] [] {} :
      Except _ (Deduction (WithBot ℚ))).map (·.derivations.length)).toOption = some 1)
  constructor
  · by_contra hlevel
    exact (deduces_iff_exists_level_tree hempty).mpr
      ⟨crowdTree, by decide +kernel, by decide +kernel, by decide +kernel, hlevel⟩
      (List.eq_nil_of_length_eq_zero hnone)
  · obtain ⟨tree, htree, -, hwidth, hlevel⟩ := (deduces_iff_exists_level_tree hfound).mp
      (List.ne_nil_of_length_pos (by omega))
    exact ⟨tree, htree, hwidth, hlevel⟩

/--
The tree `crowdTree` of `<crowd>` has the words `more more`, and deducing these tokens gives no
derivation.
-/
theorem crowd_missed :
    parse ⟨0⟩ crowdText none = .ok crowd ∧
      (crowd.DerivesPublic "crowd" crowdTree ∧ crowdTree.width = 2 ∧
        Query.wordsMatch ⟨["more", "more"], {}, crowd.grammar.vocabulary⟩ crowdTree.words
          ["more", "more"] = true) ∧
      ∃ deduction : Deduction (WithBot ℚ),
        crowd.deduce "crowd" ["more", "more"] [] {} = .ok deduction ∧
          deduction.derivations = [] := by
  have herrors : (parseLenient (P := ℚ) ⟨0⟩ crowdText none).2 = [] := by decide +kernel
  obtain ⟨deduction, hdeduce, hnone⟩ := exists_of_toOption_map_eq_some
    (by decide +kernel : ((crowd.deduce "crowd" ["more", "more"] [] {} :
      Except _ (Deduction (WithBot ℚ))).map (·.derivations.length)).toOption = some 0)
  exact ⟨parse_eq_ok_iff.mpr (Prod.ext rfl herrors), by decide +kernel, deduction, hdeduce,
    List.eq_nil_of_length_eq_zero hnone⟩

end Scope

end SpeechGrammar
