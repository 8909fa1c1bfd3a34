import SpeechGrammar.Proofs.Derivation.Reach
import SpeechGrammar.Proofs.Derivation.Trimming

/-!
# Trees that climb

A rule may come up again below itself before any word.  If it has fewer words
there than above, the tree climbs: the rule goes on behind itself.  Otherwise
the lower tree has all words of the upper one and can take its place.  So a
tree that does not climb can be straightened: another tree of the same
expansion has the same words, and no rule comes up again below itself at the
same token.
-/

namespace SpeechGrammar

variable {P : Type}

namespace Tree

/-- Induction over trees, through the trees that others are put together from. -/
theorem structural {motive : Tree P → Prop}
    (word : ∀ text, motive (.word text))
    (rule : ∀ target body, motive body → motive (.rule target body))
    (sequence : ∀ items, (∀ item ∈ items, motive item) → motive (.sequence items))
    (branch : ∀ probability body, motive body → motive (.branch probability body))
    (iterations : ∀ least items, (∀ item ∈ items, motive item) → motive (.iterations least items))
    (tagged : ∀ body tags, motive body → motive (.tagged body tags)) :
    ∀ tree, motive tree := by
  refine @Tree.rec P motive (fun items => ∀ item ∈ items, motive item)
    word rule sequence branch iterations tagged ?_ ?_
  · exact fun item hitem => nomatch hitem
  · exact fun _ _ hitem hitems => List.forall_mem_cons.mpr ⟨hitem, hitems⟩

/-- A rule, with a tree below it, occurs in a tree behind so many words. -/
inductive Occurs (target : Target) (body : Tree P) : Nat → Tree P → Prop where
  | here : Occurs target body 0 (.rule target body)
  | rule {offset : Nat} {inner : Tree P} (other : Target)
      (hinner : Occurs target body offset inner) : Occurs target body offset (.rule other inner)
  | head {offset : Nat} {item : Tree P} (items : List (Tree P))
      (hitem : Occurs target body offset item) :
      Occurs target body offset (.sequence (item :: items))
  | tail {offset : Nat} (item : Tree P) {items : List (Tree P)}
      (hitems : Occurs target body offset (.sequence items)) :
      Occurs target body (item.width + offset) (.sequence (item :: items))
  | branch {offset : Nat} (probability : P) {inner : Tree P}
      (hinner : Occurs target body offset inner) :
      Occurs target body offset (.branch probability inner)
  | iterations {offset : Nat} (least : Nat) {items : List (Tree P)}
      (hitems : Occurs target body offset (.sequence items)) :
      Occurs target body offset (.iterations least items)
  | tagged {offset : Nat} {inner : Tree P} (tags : List Tag)
      (hinner : Occurs target body offset inner) :
      Occurs target body offset (.tagged inner tags)

/-- Some rule comes up again below itself before any word, and has fewer words there. -/
def Climbs (tree : Tree P) : Prop :=
  ∃ target upper lower offset, Occurs target upper offset tree ∧ Occurs target lower 0 upper ∧
    lower.width < upper.width

section Occurs

variable {target other : Target} {tree body inner : Tree P} {items more : List (Tree P)}
  {offset start : Nat}

/-- What occurs below a rule occurs where the rule does. -/
theorem Occurs.trans (hbody : Occurs target body offset inner)
    (hinner : Occurs other inner start tree) : Occurs target body (start + offset) tree := by
  induction hinner with
  | here =>
      rw [Nat.zero_add]
      exact hbody.rule other
  | rule next _ ih => exact ih.rule next
  | head items _ ih => exact ih.head items
  | tail item _ ih =>
      rw [Nat.add_assoc]
      exact ih.tail item
  | branch probability _ ih => exact ih.branch probability
  | iterations least _ ih => exact ih.iterations least
  | tagged tags _ ih => exact ih.tagged tags

theorem Occurs.exists_words_eq (hoccurs : Occurs target body offset tree) :
    ∃ before behind, tree.words = before ++ (body.words ++ behind) ∧ before.length = offset := by
  induction hoccurs with
  | here => exact ⟨[], [], by simp, rfl⟩
  | rule _ _ ih => exact ih
  | head items _ ih =>
      obtain ⟨before, behind, hwords, hlength⟩ := ih
      exact ⟨before, behind ++ (sequence items).words, by simp [hwords], hlength⟩
  | tail item _ ih =>
      obtain ⟨before, behind, hwords, hlength⟩ := ih
      exact ⟨item.words ++ before, behind, by simp [hwords], by simp [hlength, width]⟩
  | branch _ _ ih => exact ih
  | iterations _ _ ih => exact ih
  | tagged _ _ ih => exact ih

theorem Occurs.words_eq (hoccurs : Occurs target body 0 tree) (hwidth : tree.width ≤ body.width) :
    body.words = tree.words := by
  obtain ⟨before, behind, hwords, hlength⟩ := hoccurs.exists_words_eq
  have hfront : body.words <+: tree.words := by
    rw [hwords, List.eq_nil_of_length_eq_zero hlength]
    exact ⟨behind, rfl⟩
  exact hfront.eq_of_length_le hwidth

theorem occurs_cons_iff {item : Tree P} :
    Occurs target body offset (.sequence (item :: items)) ↔
      Occurs target body offset item ∨
        ∃ behind, offset = item.width + behind ∧ Occurs target body behind (.sequence items) := by
  constructor
  · intro hoccurs
    cases hoccurs with
    | head _ hitem => exact .inl hitem
    | tail _ hitems => exact .inr ⟨_, rfl, hitems⟩
  · rintro (hitem | ⟨behind, rfl, hitems⟩)
    · exact hitem.head items
    · exact hitems.tail item

theorem not_occurs_nil : ¬ Occurs target body offset (.sequence []) :=
  fun hoccurs => nomatch hoccurs

/-- What occurs in trees one behind another occurs in one of them, where that one starts. -/
theorem Occurs.exists_item (hoccurs : Occurs target body offset (.sequence items)) :
    ∃ item ∈ items, ∃ place ≤ offset, Occurs target body place item := by
  induction items generalizing offset with
  | nil => exact (not_occurs_nil hoccurs).elim
  | cons item items ih =>
      rcases occurs_cons_iff.mp hoccurs with hitem | ⟨behind, rfl, hitems⟩
      · exact ⟨item, List.mem_cons_self .., offset, le_refl _, hitem⟩
      · obtain ⟨other, hother, place, hle, hplace⟩ := ih hitems
        exact ⟨other, List.mem_cons_of_mem _ hother, place, by omega, hplace⟩

theorem Occurs.of_mem {item : Tree P} (hitem : item ∈ items)
    (hoccurs : Occurs target body offset item) :
    ∃ place, Occurs target body place (.sequence items) := by
  induction items with
  | nil => cases hitem
  | cons first items ih =>
      rcases List.mem_cons.mp hitem with rfl | hitem
      · exact ⟨offset, hoccurs.head items⟩
      · obtain ⟨place, hplace⟩ := ih hitem
        exact ⟨_, hplace.tail first⟩

/-- Trees without words may be left out of others: nothing is moved by that. -/
theorem Occurs.of_filter
    (hoccurs : Occurs target body offset (.sequence (items.filter fun item => 0 < item.width))) :
    Occurs target body offset (.sequence items) := by
  induction items generalizing offset with
  | nil => exact hoccurs
  | cons item items ih =>
      rw [List.filter_cons] at hoccurs
      split at hoccurs
      · rcases occurs_cons_iff.mp hoccurs with hitem | ⟨behind, rfl, hitems⟩
        · exact hitem.head items
        · exact (ih hitems).tail item
      · rename_i hsilent
        have hwidth : item.width = 0 := by simpa using hsilent
        have htail := (ih hoccurs).tail item
        rwa [hwidth, Nat.zero_add] at htail

theorem Occurs.of_keptIterations {least : Nat}
    (hoccurs : Occurs target body offset (.sequence (Scope.keptIterations least items))) :
    Occurs target body offset (.sequence items) := by
  induction least generalizing items offset with
  | zero => exact hoccurs.of_filter
  | succ least ih =>
      cases items with
      | nil => exact hoccurs
      | cons item items =>
          rcases occurs_cons_iff.mp hoccurs with hitem | ⟨behind, rfl, hitems⟩
          · exact hitem.head items
          · exact (ih hitems).tail item

theorem not_climbs_of_occurs (hlevel : ¬ tree.Climbs)
    (hpart : ∀ target body offset, Occurs target body offset inner →
      ∃ place, Occurs target body place tree) : ¬ inner.Climbs := by
  rintro ⟨target, upper, lower, offset, hupper, hlower, hless⟩
  obtain ⟨place, hplace⟩ := hpart target upper offset hupper
  exact hlevel ⟨target, upper, lower, place, hplace, hlower, hless⟩

end Occurs

/-! ## Rules that do not come up again -/

section Guarded

/-- Trees one behind another are guarded in a context like each of them. -/
theorem guardedItems_iff {items : List (Tree P)}
    (hitems : ∀ item ∈ items, ∀ opened start, item.Guarded opened start ↔ item.Guarded [] 0 ∧
      ∀ target body offset, Occurs target body offset item → (target, start + offset) ∉ opened)
    (opened : List (Target × Nat)) (start : Nat) :
    GuardedItems opened start items ↔ GuardedItems [] 0 items ∧
      ∀ target body offset, Occurs target body offset (.sequence items) →
        (target, start + offset) ∉ opened := by
  induction items generalizing opened start with
  | nil => exact iff_of_true trivial ⟨trivial, fun _ _ _ hoccurs => (not_occurs_nil hoccurs).elim⟩
  | cons item items ih =>
      obtain ⟨hitem, hitems⟩ := List.forall_mem_cons.mp hitems
      have hnone : GuardedItems [] (0 + item.width) items ↔ GuardedItems [] 0 items := by
        rw [ih hitems]
        exact and_iff_left fun _ _ _ _ => List.not_mem_nil
      rw [GuardedItems, GuardedItems, hitem, ih hitems, hnone]
      constructor
      · rintro ⟨⟨hguarded, hout⟩, hguardedItems, houtItems⟩
        refine ⟨⟨hguarded, hguardedItems⟩, fun target body offset hoccurs => ?_⟩
        rcases occurs_cons_iff.mp hoccurs with hinItem | ⟨behind, rfl, hinItems⟩
        · exact hout target body offset hinItem
        · rw [← Nat.add_assoc]
          exact houtItems target body behind hinItems
      · rintro ⟨⟨hguarded, hguardedItems⟩, hout⟩
        refine ⟨⟨hguarded, fun target body offset hoccurs => hout _ _ _ (hoccurs.head items)⟩,
          hguardedItems, fun target body offset hoccurs => ?_⟩
        rw [Nat.add_assoc]
        exact hout _ _ _ (hoccurs.tail item)

/-- A tree is guarded among open rules if it is guarded by itself and none of them occurs. -/
theorem guarded_iff (tree : Tree P) (opened : List (Target × Nat)) (start : Nat) :
    tree.Guarded opened start ↔ tree.Guarded [] 0 ∧
      ∀ target body offset, Occurs target body offset tree →
        (target, start + offset) ∉ opened := by
  induction tree using Tree.structural generalizing opened start with
  | word text => exact iff_of_true trivial ⟨trivial, fun _ _ _ hoccurs => nomatch hoccurs⟩
  | rule target body ih =>
      rw [Guarded, Guarded, ih, ih [(target, 0)]]
      constructor
      · rintro ⟨hnew, hguarded, hout⟩
        refine ⟨⟨List.not_mem_nil, hguarded, fun other inner offset hoccurs hmem => ?_⟩,
          fun other inner offset hoccurs => ?_⟩
        · obtain ⟨rfl, hzero⟩ := Prod.mk.inj (List.mem_singleton.mp hmem)
          refine hout _ inner offset hoccurs ?_
          rw [show offset = 0 by omega]
          exact List.mem_cons_self ..
        · cases hoccurs with
          | here => exact hnew
          | rule _ hoccurs =>
              exact fun hmem => hout other inner offset hoccurs (List.mem_cons_of_mem _ hmem)
      · rintro ⟨⟨-, hguarded, hinside⟩, hout⟩
        refine ⟨hout target body 0 .here, hguarded, fun other inner offset hoccurs hmem => ?_⟩
        rcases List.mem_cons.mp hmem with heq | hmem
        · obtain ⟨rfl, hzero⟩ := Prod.mk.inj heq
          refine hinside _ inner offset hoccurs (List.mem_singleton.mpr ?_)
          rw [show offset = 0 by omega]
        · exact hout other inner offset (hoccurs.rule target) hmem
  | sequence items ih => exact guardedItems_iff ih opened start
  | branch probability body ih =>
      rw [Guarded, Guarded, ih]
      refine and_congr_right fun _ => forall₃_congr fun target inner offset => ?_
      exact imp_congr_left ⟨fun hoccurs => hoccurs.branch probability, fun hoccurs => by
        cases hoccurs with
        | branch _ hinner => exact hinner⟩
  | iterations least items ih =>
      rw [Guarded, Guarded, guardedItems_iff ih]
      refine and_congr_right fun _ => forall₃_congr fun target inner offset => ?_
      exact imp_congr_left ⟨fun hoccurs => hoccurs.iterations least, fun hoccurs => by
        cases hoccurs with
        | iterations _ hinner => exact hinner⟩
  | tagged body tags ih =>
      rw [Guarded, Guarded, ih]
      refine and_congr_right fun _ => forall₃_congr fun target inner offset => ?_
      exact imp_congr_left ⟨fun hoccurs => hoccurs.tagged tags, fun hoccurs => by
        cases hoccurs with
        | tagged _ hinner => exact hinner⟩

end Guarded

/-! ## Straight trees and their parts -/

section Parts

variable {target : Target} {body tree : Tree P} {offset : Nat}

theorem Occurs.guarded (hoccurs : Occurs target body offset tree) (htree : tree.Guarded [] 0) :
    (Tree.rule target body).Guarded [] 0 := by
  induction hoccurs with
  | here => exact htree
  | rule _ _ ih => exact ih ((guarded_iff _ _ _).mp htree.2).1
  | head _ _ ih => exact ih htree.1
  | @tail _ item items _ ih => exact ih ((guarded_iff (.sequence items) _ _).mp htree.2).1
  | branch _ _ ih => exact ih htree
  | iterations _ _ ih => exact ih htree
  | tagged _ _ ih => exact ih htree

/-- What occurs in a tree without empty iterations has none. -/
theorem Occurs.productive (hoccurs : Occurs target body offset tree) (htree : tree.Productive) :
    (Tree.rule target body).Productive := by
  induction hoccurs with
  | here => exact htree
  | rule _ _ ih => exact ih htree
  | head _ _ ih => exact ih htree.1
  | tail _ _ ih => exact ih htree.2
  | branch _ _ ih => exact ih htree
  | iterations _ _ ih => exact ih htree.2
  | tagged _ _ ih => exact ih htree

theorem Occurs.derives [BranchWeight P] {scope : Scope P} {expansion : Expansion P}
    (hoccurs : Occurs target body offset tree) (hderives : Derives scope expansion tree) :
    ∃ rule, scope.follow? target = some rule ∧ Derives scope rule.body body := by
  induction hderives generalizing offset with
  | literal text => cases hoccurs
  | reference _ hrule hbody ih =>
      cases hoccurs with
      | here => exact ⟨_, hrule, hbody⟩
      | rule _ hinner => exact ih hinner
  | sequence hlength _ ih =>
      obtain ⟨item, hitem, place, -, hplace⟩ := hoccurs.exists_item
      obtain ⟨expansion, -, hpair⟩ := exists_zip_of_mem_right hlength hitem
      exact ih expansion item hpair hplace
  | alternation _ _ _ ih =>
      cases hoccurs with
      | branch _ hinner => exact ih hinner
  | repetition _ _ _ ih =>
      cases hoccurs with
      | iterations _ hitems =>
          obtain ⟨item, hitem, place, -, hplace⟩ := hitems.exists_item
          exact ih item hitem hplace
  | optional _ ih => exact ih hoccurs
  | tagged _ ih =>
      cases hoccurs with
      | tagged _ hinner => exact ih hinner

end Parts

/--
A tree has the words of another one, and no rule comes up again below itself at
the same token.  Where a rule occurs, it occurs in the other tree with as many
words, so that what is put on top climbs no more than it does on the other one.
-/
structure Straightens (straight tree : Tree P) : Prop where
  words : straight.words = tree.words
  guarded : straight.Guarded [] 0
  productive : straight.Productive
  occurs : ∀ {target body offset}, Occurs target body offset straight →
    ∃ inner, Occurs target inner offset tree ∧ inner.width = body.width

section Straightens

variable {straight tree : Tree P}

theorem Straightens.width (hstraight : straight.Straightens tree) :
    straight.width = tree.width :=
  congrArg List.length hstraight.words

theorem straightens_nil : (sequence [] : Tree P).Straightens (.sequence []) :=
  ⟨rfl, trivial, trivial, fun hoccurs => (not_occurs_nil hoccurs).elim⟩

theorem Straightens.cons (hstraight : straight.Straightens tree) {straights trees : List (Tree P)}
    (hrest : (sequence straights).Straightens (sequence trees)) :
    (sequence (straight :: straights)).Straightens (sequence (tree :: trees)) where
  words := by rw [words_cons, words_cons, hstraight.words, hrest.words]
  guarded :=
    ⟨hstraight.guarded, (guarded_iff (.sequence straights) _ _).mpr
      ⟨hrest.guarded, fun _ _ _ _ => List.not_mem_nil⟩⟩
  productive := ⟨hstraight.productive, hrest.productive⟩
  occurs hoccurs := by
    rcases occurs_cons_iff.mp hoccurs with hitem | ⟨behind, rfl, hitems⟩
    · obtain ⟨inner, hinner, hwidth⟩ := hstraight.occurs hitem
      exact ⟨inner, hinner.head trees, hwidth⟩
    · obtain ⟨inner, hinner, hwidth⟩ := hrest.occurs hitems
      exact ⟨inner, hstraight.width ▸ hinner.tail tree, hwidth⟩

theorem Straightens.branch (hstraight : straight.Straightens tree) (probability : P) :
    (branch probability straight).Straightens (branch probability tree) where
  words := hstraight.words
  guarded := hstraight.guarded
  productive := hstraight.productive
  occurs
    | .branch _ hinner =>
        let ⟨inner, hoccurs, hwidth⟩ := hstraight.occurs hinner
        ⟨inner, hoccurs.branch probability, hwidth⟩

theorem Straightens.tagged (hstraight : straight.Straightens tree) (tags : List Tag) :
    (tagged straight tags).Straightens (tagged tree tags) where
  words := hstraight.words
  guarded := hstraight.guarded
  productive := hstraight.productive
  occurs
    | .tagged _ hinner =>
        let ⟨inner, hoccurs, hwidth⟩ := hstraight.occurs hinner
        ⟨inner, hoccurs.tagged tags, hwidth⟩

/-- A rule on top is straightened with what is below it, unless it comes up again in front. -/
theorem Straightens.rule (hstraight : straight.Straightens tree) {target : Target}
    (hnew : ∀ lower, ¬ Occurs target lower 0 straight) :
    (Tree.rule target straight).Straightens (.rule target tree) where
  words := hstraight.words
  guarded := by
    refine ⟨List.not_mem_nil, (guarded_iff _ _ _).mpr ⟨hstraight.guarded, ?_⟩⟩
    intro other lower offset hoccurs hmem
    obtain ⟨rfl, hzero⟩ := Prod.mk.inj (List.mem_singleton.mp hmem)
    obtain rfl : offset = 0 := by omega
    exact hnew lower hoccurs
  productive := hstraight.productive
  occurs
    | .here => ⟨tree, .here, hstraight.width.symm⟩
    | .rule _ hinner =>
        let ⟨inner, hoccurs, hwidth⟩ := hstraight.occurs hinner
        ⟨inner, hoccurs.rule target, hwidth⟩

/-- A rule that comes up again in front with all words takes the place of the one on top. -/
theorem Straightens.rule_again (hstraight : straight.Straightens tree) {target : Target}
    (hlevel : ¬ (Tree.rule target tree).Climbs) {lower : Tree P}
    (hlower : Occurs target lower 0 straight) :
    (Tree.rule target lower).Straightens (.rule target tree) := by
  have hwidth : tree.width ≤ lower.width := by
    obtain ⟨inner, hinner, hsame⟩ := hstraight.occurs hlower
    rw [← hsame]
    by_contra hless
    exact hlevel ⟨target, tree, inner, 0, .here, hinner, Nat.lt_of_not_le hless⟩
  have hwords : lower.words = tree.words :=
    (hlower.words_eq (hstraight.width.trans_le hwidth)).trans hstraight.words
  refine ⟨hwords, hlower.guarded hstraight.guarded, hlower.productive hstraight.productive, ?_⟩
  intro other body offset hoccurs
  cases hoccurs with
  | here => exact ⟨tree, .here, (congrArg List.length hwords).symm⟩
  | rule _ hinner =>
      obtain ⟨inner, hfound, hsame⟩ := hstraight.occurs (hinner.trans hlower)
      rw [Nat.zero_add] at hfound
      exact ⟨inner, hfound.rule target, hsame⟩

end Straightens

end Tree

/-! ## Straightening -/

namespace Derives

open SpeechGrammar.Tree (Straightens not_climbs_of_occurs)

variable [BranchWeight P] {scope : Scope P}

/-- The trees of a sequence are straightened one by one. -/
theorem exists_straightens_items {items : List (Expansion P)} {trees : List (Tree P)}
    (hderives : Derives scope (.sequence items) (.sequence trees))
    (hparts : ∀ item tree, (item, tree) ∈ items.zip trees →
      ∃ straight, Derives scope item straight ∧ straight.Straightens tree) :
    ∃ straights, Derives scope (.sequence items) (.sequence straights) ∧
      straights.map (·.words) = trees.map (·.words) ∧
      (Tree.sequence straights).Straightens (.sequence trees) := by
  induction items generalizing trees with
  | nil =>
      obtain rfl := sequence_nil_iff.mp hderives
      exact ⟨[], hderives, rfl, Tree.straightens_nil⟩
  | cons item items ih =>
      obtain ⟨tree, trees, rfl, htree, hrest⟩ := sequence_cons_iff.mp hderives
      obtain ⟨hhead, htail⟩ : (∃ straight, Derives scope item straight ∧
          straight.Straightens tree) ∧ ∀ other otherTree, (other, otherTree) ∈ items.zip trees →
          ∃ straight, Derives scope other straight ∧ straight.Straightens otherTree :=
        ⟨hparts item tree (List.mem_cons_self ..),
          fun other otherTree hmem => hparts other otherTree (List.mem_cons_of_mem _ hmem)⟩
      obtain ⟨straight, hstraight, hstraightens⟩ := hhead
      obtain ⟨straights, hstraights, hmap, hall⟩ := ih hrest htail
      refine ⟨straight :: straights,
        sequence_cons_iff.mpr ⟨straight, straights, rfl, hstraight, hstraights⟩, ?_,
        hstraightens.cons hall⟩
      rw [List.map_cons, List.map_cons, hstraightens.words, hmap]

/-- Iterations are straightened one by one, without those that there need not be. -/
theorem exists_straightens_iterations {body : Expansion P} {least : Nat} {most? : Option Nat}
    {trees : List (Tree P)} (hleast : least ≤ trees.length)
    (hmost : ∀ most ∈ most?, trees.length ≤ most)
    (htrees : ∀ tree ∈ trees, Derives scope body tree)
    (hparts : ∀ tree ∈ trees, ∃ straight, Derives scope body straight ∧
      straight.Straightens tree) :
    ∃ straight, Derives scope (.repetition body least most?) straight ∧
      straight.Straightens (.iterations least trees) := by
  have hsublist : (Scope.keptIterations least trees).Sublist trees := Scope.keptIterations_sublist
  obtain ⟨straights, hstraights, hmap, hall⟩ := exists_straightens_items
    (sequence_replicate_iff.mpr ⟨rfl, fun tree htree => htrees tree (hsublist.subset htree)⟩)
    (fun item tree hmem => by
      obtain ⟨hitem, htree⟩ := List.of_mem_zip hmem
      obtain ⟨-, rfl⟩ := List.mem_replicate.mp hitem
      exact hparts tree (hsublist.subset htree))
  obtain ⟨hcount, hderives⟩ := sequence_replicate_iff.mp hstraights
  refine ⟨.iterations least straights, .repetition
    (hcount ▸ Scope.le_length_keptIterations hleast)
    (fun most hmem => hcount ▸ hsublist.length_le.trans (hmost most hmem)) hderives, ?_⟩
  refine ⟨hall.words.trans Scope.words_keptIterations, hall.guarded,
    ⟨Scope.width_pos_of_keptIterations hleast hmap, hall.productive⟩, fun hoccurs => ?_⟩
  cases hoccurs with
  | iterations _ hitems =>
      obtain ⟨inner, hinner, hwidth⟩ := hall.occurs hitems
      exact ⟨inner, hinner.of_keptIterations.iterations least, hwidth⟩

/-- A tree that does not climb can be straightened. -/
theorem exists_straightens {expansion : Expansion P} {tree : Tree P}
    (hderives : Derives scope expansion tree) (hlevel : ¬ tree.Climbs) :
    ∃ straight, Derives scope expansion straight ∧ straight.Straightens tree := by
  induction hderives with
  | literal text =>
      exact ⟨.word text, .literal text, rfl, trivial, trivial, fun hoccurs => nomatch hoccurs⟩
  | @reference link target rule tree htarget hrule hbody ih =>
      have hinside : ¬ tree.Climbs :=
        not_climbs_of_occurs hlevel fun _ _ offset hoccurs => ⟨offset, hoccurs.rule target⟩
      obtain ⟨straight, hstraight, hstraightens⟩ := ih hinside
      by_cases hagain : ∃ lower, Tree.Occurs target lower 0 straight
      · obtain ⟨lower, hlower⟩ := hagain
        obtain ⟨found, hfound, hderived⟩ := hlower.derives hstraight
        exact ⟨.rule target lower, .reference htarget hfound hderived,
          hstraightens.rule_again hlevel hlower⟩
      · exact ⟨.rule target straight, .reference htarget hrule hstraight,
          hstraightens.rule (not_exists.mp hagain)⟩
  | @sequence items trees hlength hitems ih =>
      have hinside : ∀ tree ∈ trees, ¬ tree.Climbs := fun tree htree =>
        not_climbs_of_occurs hlevel fun _ _ _ hoccurs => hoccurs.of_mem htree
      obtain ⟨straights, hstraights, -, hall⟩ := exists_straightens_items (.sequence hlength hitems)
        fun item tree hmem => ih item tree hmem (hinside tree (List.of_mem_zip hmem).2)
      exact ⟨.sequence straights, hstraights, hall⟩
  | @alternation branches branch tree hmem hpositive hbody ih =>
      have hinside : ¬ tree.Climbs := not_climbs_of_occurs hlevel fun _ _ offset hoccurs =>
        ⟨offset, hoccurs.branch branch.probability⟩
      obtain ⟨straight, hstraight, hstraightens⟩ := ih hinside
      exact ⟨_, .alternation hmem hpositive hstraight, hstraightens.branch branch.probability⟩
  | @repetition body least most? trees hleast hmost htrees ih =>
      have hinside : ∀ tree ∈ trees, ¬ tree.Climbs := fun tree htree =>
        not_climbs_of_occurs hlevel fun _ _ _ hoccurs =>
          let ⟨place, hplace⟩ := hoccurs.of_mem htree
          ⟨place, hplace.iterations least⟩
      exact exists_straightens_iterations hleast hmost htrees
        fun tree htree => ih tree htree (hinside tree htree)
  | optional htree ih =>
      obtain ⟨straight, hstraight, hstraightens⟩ := ih hlevel
      exact ⟨straight, .optional hstraight, hstraightens⟩
  | @tagged body tags tree hbody ih =>
      have hinside : ¬ tree.Climbs := not_climbs_of_occurs hlevel fun _ _ offset hoccurs =>
        ⟨offset, hoccurs.tagged tags⟩
      obtain ⟨straight, hstraight, hstraightens⟩ := ih hinside
      exact ⟨.tagged straight tags, .tagged hstraight, hstraightens.tagged tags⟩

end Derives

theorem Tree.not_climbs_of_guarded {tree : Tree P} (hguarded : tree.Guarded [] 0) :
    ¬ tree.Climbs := by
  rintro ⟨target, upper, lower, offset, hupper, hlower, -⟩
  obtain ⟨-, hinside⟩ := hupper.guarded hguarded
  have hout := ((guarded_iff upper _ _).mp hinside).2 target lower 0 hlower
  exact hout (List.mem_singleton_self _)

end SpeechGrammar
