import SpeechGrammar.Proofs.Deduction.Fitting
import SpeechGrammar.Proofs.Deduction.Firsts

/-!
# What the search goes through

A step of the search carries a match on over trees: whatever it finds is the
match carried on over some tree of a family, and for every tree of the family
it finds a match that stands at the same token with the same tags.  Leaving
out matches that agree with earlier ones keeps this, and so it passes from
references to all expansions and, as there is enough room for the rules that
can be open, to references themselves.
-/

namespace SpeechGrammar

variable {P W : Type}

namespace Partial

variable [BranchWeight P] [ExactWeight W] [Logarithm P W]

def past (found : Partial W) (tree : Tree P) : Partial W :=
  ⟨found.consumed + tree.width, found.tags.union tree.tags, found.score + tree.weight⟩

theorem Agrees.past {first second : Partial W} (hagrees : first.Agrees second) (tree : Tree P) :
    (first.past tree).Agrees (second.past tree) :=
  ⟨congrArg (· + tree.width) hagrees.1, congrArg (·.union tree.tags) hagrees.2⟩

@[simp] theorem past_nil (found : Partial W) : found.past (.sequence [] : Tree P) = found := by
  simp [Partial.past]

theorem past_cons (found : Partial W) (item : Tree P) (items : List (Tree P)) :
    found.past (.sequence (item :: items)) = (found.past item).past (.sequence items) := by
  simp [Partial.past, add_assoc, SortedSet.union_assoc]

theorem past_branch (found : Partial W) (probability : P) (body : Tree P) :
    found.past (.branch probability body) =
      ({ found with score := found.score + Logarithm.ln probability } : Partial W).past body := by
  simp [Partial.past, add_assoc]

theorem past_tagged (found : Partial W) (body : Tree P) (tags : List Tag) :
    found.past (.tagged body tags) =
      ({ found with tags := found.tags.insertAll tags } : Partial W).past body := by
  simp [Partial.past, SortedSet.insertAll_eq_union, SortedSet.union_assoc]

end Partial

variable [BranchWeight P] [ExactWeight W] [Logarithm P W]

/-- The trees of a family of lists, one behind another. -/
def InSequence (family : Nat → List (Tree P) → Prop) (start : Nat) (tree : Tree P) : Prop :=
  ∃ trees, tree = .sequence trees ∧ family start trees

/--
Some matches carried on over the trees of a family, where every tree is gone
over, up to matches that agree.
-/
structure Finds (family : Nat → Tree P → Prop) (partials laters : List (Partial W)) : Prop where
  sound : ∀ later ∈ laters, ∃ found ∈ partials, ∃ tree, family found.consumed tree ∧
    later = found.past tree
  complete : ∀ found ∈ partials, ∀ tree, family found.consumed tree →
    ∃ later ∈ laters, later.Agrees (found.past tree)

namespace Finds

variable {family other : Nat → Tree P → Prop} {partials middle laters : List (Partial W)}

/-- Matches that agree with earlier ones may be left out. -/
theorem firsts (hfinds : Finds family partials laters) :
    Finds family partials (Partial.firsts laters) where
  sound later hlater := hfinds.sound later (Partial.mem_of_mem_firsts hlater)
  complete found hfound tree htree := by
    obtain ⟨later, hlater, hagrees⟩ := hfinds.complete found hfound tree htree
    obtain ⟨first, hfirst, hsame⟩ := Partial.exists_firsts_of_mem hlater
    exact ⟨first, hfirst, hsame.1.trans hagrees.1, hsame.2.trans hagrees.2⟩

/-- Matches may be carried on one by one. -/
theorem flatMap {step : Partial W → List (Partial W)}
    (hstep : ∀ found ∈ partials, Finds family [found] (step found)) :
    Finds family partials (partials.flatMap step) where
  sound later hlater := by
    obtain ⟨found, hfound, hlater⟩ := List.mem_flatMap.mp hlater
    obtain ⟨_, hsingle, tree, htree, heq⟩ := (hstep found hfound).sound later hlater
    obtain rfl := List.mem_singleton.mp hsingle
    exact ⟨_, hfound, tree, htree, heq⟩
  complete found hfound tree htree := by
    obtain ⟨later, hlater, hagrees⟩ :=
      (hstep found hfound).complete found (List.mem_singleton_self _) tree htree
    exact ⟨later, List.mem_flatMap.mpr ⟨found, hfound, hlater⟩, hagrees⟩

theorem congr (hfinds : Finds family partials laters)
    (hiff : ∀ found ∈ partials, ∀ tree, family found.consumed tree ↔ other found.consumed tree) :
    Finds other partials laters where
  sound later hlater := by
    obtain ⟨found, hfound, tree, htree, heq⟩ := hfinds.sound later hlater
    exact ⟨found, hfound, tree, (hiff found hfound tree).mp htree, heq⟩
  complete found hfound tree htree :=
    hfinds.complete found hfound tree ((hiff found hfound tree).mpr htree)

/-- A match may stand for another one whose trees carry it on to the same places. -/
theorem transfer {found given : Partial W} (hfinds : Finds family [given] laters)
    (hto : ∀ tree, family given.consumed tree → ∃ tree', other found.consumed tree' ∧
      found.past tree' = given.past tree)
    (hfrom : ∀ tree, other found.consumed tree → ∃ tree', family given.consumed tree' ∧
      found.past tree = given.past tree') :
    Finds other [found] laters where
  sound later hlater := by
    obtain ⟨_, hsingle, tree, htree, rfl⟩ := hfinds.sound later hlater
    obtain rfl := List.mem_singleton.mp hsingle
    obtain ⟨tree', htree', hpast⟩ := hto tree htree
    exact ⟨found, List.mem_singleton_self _, tree', htree', hpast.symm⟩
  complete _ hsingle tree htree := by
    obtain rfl := List.mem_singleton.mp hsingle
    obtain ⟨tree', htree', hpast⟩ := hfrom tree htree
    obtain ⟨later, hlater, hagrees⟩ :=
      hfinds.complete given (List.mem_singleton_self _) tree' htree'
    exact ⟨later, hlater, hpast ▸ hagrees⟩

theorem nil : Finds family ([] : List (Partial W)) [] where
  sound later hlater := by cases hlater
  complete found hfound := by cases hfound

theorem none (hnone : ∀ found ∈ partials, ∀ tree, ¬ family found.consumed tree) :
    Finds family partials [] where
  sound later hlater := by cases hlater
  complete found hfound tree htree := absurd htree (hnone found hfound tree)

/-- What is found for two families is found for both together. -/
theorem append {more : List (Partial W)} (hfinds : Finds family partials laters)
    (hmore : Finds other partials more) :
    Finds (fun start tree => family start tree ∨ other start tree) partials (laters ++ more) where
  sound later hlater := by
    rcases List.mem_append.mp hlater with hlater | hlater
    · obtain ⟨found, hfound, tree, htree, heq⟩ := hfinds.sound later hlater
      exact ⟨found, hfound, tree, .inl htree, heq⟩
    · obtain ⟨found, hfound, tree, htree, heq⟩ := hmore.sound later hlater
      exact ⟨found, hfound, tree, .inr htree, heq⟩
  complete found hfound tree htree := by
    rcases htree with htree | htree
    · obtain ⟨later, hlater, hagrees⟩ := hfinds.complete found hfound tree htree
      exact ⟨later, List.mem_append_left _ hlater, hagrees⟩
    · obtain ⟨later, hlater, hagrees⟩ := hmore.complete found hfound tree htree
      exact ⟨later, List.mem_append_right _ hlater, hagrees⟩

theorem refl : Finds (InSequence fun _ trees => trees = ([] : List (Tree P))) partials
    partials where
  sound later hlater := ⟨later, hlater, _, ⟨[], rfl, rfl⟩, (Partial.past_nil later).symm⟩
  complete found hfound tree htree := by
    obtain ⟨_, rfl, rfl⟩ := htree
    exact ⟨found, hfound, by rw [Partial.past_nil]; exact ⟨rfl, rfl⟩⟩

theorem filter {test : Partial W → Bool} {found : Partial W} (hfinds : Finds family [found] laters)
    {narrow : Nat → Tree P → Prop}
    (htest : ∀ later tree, later.Agrees (found.past tree) →
      (test later = true ↔ narrow found.consumed tree)) :
    Finds (fun start tree => family start tree ∧ narrow start tree) [found]
      (laters.filter test) where
  sound later hlater := by
    obtain ⟨hlater, hpass⟩ := List.mem_filter.mp hlater
    obtain ⟨_, hsingle, tree, htree, rfl⟩ := hfinds.sound later hlater
    obtain rfl := List.mem_singleton.mp hsingle
    exact ⟨_, hsingle, tree, ⟨htree, (htest _ tree ⟨rfl, rfl⟩).mp hpass⟩, rfl⟩
  complete given hgiven tree htree := by
    obtain rfl := List.mem_singleton.mp hgiven
    obtain ⟨later, hlater, hagrees⟩ := hfinds.complete given hgiven tree htree.1
    exact ⟨later, List.mem_filter.mpr ⟨hlater, (htest later tree hagrees).mpr htree.2⟩, hagrees⟩

/-- Carrying on over one family and then over the rest goes over both one behind another. -/
theorem trans {rest : Nat → List (Tree P) → Prop} (hfirst : Finds family partials middle)
    (hrest : Finds (InSequence rest) middle laters) :
    Finds (InSequence fun start trees => ∃ item items, trees = item :: items ∧
      family start item ∧ rest (start + item.width) items) partials laters where
  sound later hlater := by
    obtain ⟨_, hmiddle, _, ⟨items, rfl, hitems⟩, rfl⟩ := hrest.sound later hlater
    obtain ⟨found, hfound, item, hitem, rfl⟩ := hfirst.sound _ hmiddle
    exact ⟨found, hfound, _, ⟨_, rfl, item, items, rfl, hitem, hitems⟩,
      (Partial.past_cons ..).symm⟩
  complete found hfound tree htree := by
    obtain ⟨_, rfl, item, items, rfl, hitem, hitems⟩ := htree
    obtain ⟨between, hbetween, hagrees⟩ := hfirst.complete found hfound item hitem
    have hplace : between.consumed = found.consumed + item.width := hagrees.1
    obtain ⟨later, hlater, hsame⟩ :=
      hrest.complete between hbetween _ ⟨items, rfl, hplace ▸ hitems⟩
    have hpast := hagrees.past (.sequence items : Tree P)
    rw [Partial.past_cons]
    exact ⟨later, hlater, hsame.1.trans hpast.1, hsame.2.trans hpast.2⟩

end Finds

/-! ## Expansions -/

/-- The trees of an expansion that fit from a token on, where some rules are open. -/
def Scope.Fitting (scope : Scope P) (query : Query) (opened : List (Target × Nat))
    (expansion : Expansion P) (start : Nat) (tree : Tree P) : Prop :=
  Derives scope expansion tree ∧ tree.Fits query opened start

/-- A step carries matches that are not behind the last token on over the trees of a family. -/
def Carries (query : Query) (family : Nat → Tree P → Prop)
    (step : Partial W → List (Partial W)) : Prop :=
  ∀ found, found.consumed ≤ query.tokens.length → Finds family [found] (step found)

/-- The iterations that may follow a number of iterations, up to an allowance. -/
structure Rounds (scope : Scope P) (query : Query) (opened : List (Target × Nat))
    (body : Expansion P) (least : Nat) (most? : Option Nat) (allowance count start : Nat)
    (trees : List (Tree P)) : Prop where
  derives : ∀ tree ∈ trees, Derives scope body tree
  fits : (Tree.sequence trees).Fits query opened start
  least_le : least ≤ count + trees.length
  le_most : ∀ most ∈ most?, count + trees.length ≤ most
  wide : ∀ tree ∈ trees.drop (least - count), 0 < tree.width
  length_le : trees.length ≤ allowance

variable {scope : Scope P} {query : Query} {opened : List (Target × Nat)} {body : Expansion P}
  {least : Nat} {most? : Option Nat} {allowance count start : Nat}

theorem rounds_nil_iff :
    Rounds scope query opened body least most? allowance count start [] ↔
      least ≤ count ∧ ∀ most ∈ most?, count ≤ most := by
  constructor
  · intro hrounds
    exact ⟨hrounds.least_le, hrounds.le_most⟩
  · rintro ⟨hleast, hmost⟩
    exact ⟨by simp, Tree.fits_nil, hleast, hmost, by simp, Nat.zero_le _⟩

/-- An iteration may be followed by what may follow one more iteration. -/
theorem rounds_cons_iff {tree : Tree P} {trees : List (Tree P)} :
    Rounds scope query opened body least most? (allowance + 1) count start (tree :: trees) ↔
      (scope.Fitting query opened body start tree ∧ (least ≤ count → 0 < tree.width)) ∧
        Rounds scope query opened body least most? allowance (count + 1) (start + tree.width)
          trees := by
  have hwide : (∀ other ∈ (tree :: trees).drop (least - count), 0 < other.width) ↔
      (least ≤ count → 0 < tree.width) ∧
        ∀ other ∈ trees.drop (least - (count + 1)), 0 < other.width := by
    rcases Nat.lt_or_ge count least with hless | henough
    · have hdrop : least - count = least - (count + 1) + 1 := by omega
      rw [hdrop, List.drop_succ_cons]
      exact ⟨fun h => ⟨fun hle => absurd hless (Nat.not_lt.mpr hle), h⟩, And.right⟩
    · rw [Nat.sub_eq_zero_of_le henough, Nat.sub_eq_zero_of_le (Nat.le_succ_of_le henough)]
      simp [henough]
  constructor
  · rintro ⟨hderives, hfits, hleast, hmost, hdrop, hlength⟩
    obtain ⟨htree, htrees⟩ := List.forall_mem_cons.mp hderives
    obtain ⟨hfit, hfitRest⟩ := Tree.fits_cons_iff.mp hfits
    rw [List.length_cons] at hleast hlength
    refine ⟨⟨⟨htree, hfit⟩, (hwide.mp hdrop).1⟩, htrees, hfitRest, by omega, fun most hmem => ?_,
      (hwide.mp hdrop).2, Nat.le_of_succ_le_succ hlength⟩
    have hle := hmost most hmem
    rw [List.length_cons] at hle
    omega
  · rintro ⟨⟨⟨htree, hfit⟩, hfirst⟩, hderives, hfits, hleast, hmost, hdrop, hlength⟩
    refine ⟨List.forall_mem_cons.mpr ⟨htree, hderives⟩, Tree.fits_cons_iff.mpr ⟨hfit, hfits⟩, ?_,
      fun most hmem => ?_, hwide.mpr ⟨hfirst, hdrop⟩, Nat.succ_le_succ hlength⟩
    · rw [List.length_cons]
      omega
    · have hle := hmost most hmem
      rw [List.length_cons]
      omega

/-- Where there can be no other iteration, nothing or nothing more follows. -/
theorem inSequence_rounds_iff_of_full {tree : Tree P} (hmost : ∀ most ∈ most?, count ≤ most)
    (hfull : allowance = 0 ∨ ∃ most ∈ most?, most ≤ count) :
    InSequence (Rounds scope query opened body least most? allowance count) start tree ↔
      InSequence (fun _ trees => trees = [] ∧ least ≤ count) start tree := by
  constructor
  · rintro ⟨trees, rfl, hrounds⟩
    have hlength : trees.length = 0 := by
      rcases hfull with rfl | ⟨most, hmem, hle⟩
      · exact Nat.le_zero.mp hrounds.length_le
      · have hbound := hrounds.le_most most hmem
        omega
    obtain rfl := List.length_eq_zero_iff.mp hlength
    exact ⟨[], rfl, rfl, (rounds_nil_iff.mp hrounds).1⟩
  · rintro ⟨_, rfl, rfl, henough⟩
    exact ⟨[], rfl, rounds_nil_iff.mpr ⟨henough, hmost⟩⟩

/-- Otherwise an iteration follows and more behind it, or nothing more. -/
theorem inSequence_rounds_succ_iff {tree : Tree P} (hmost : ∀ most ∈ most?, count ≤ most) :
    InSequence (Rounds scope query opened body least most? (allowance + 1) count) start tree ↔
      InSequence (fun start trees => ∃ item items, trees = item :: items ∧
        (scope.Fitting query opened body start item ∧ (least ≤ count → 0 < item.width)) ∧
        Rounds scope query opened body least most? allowance (count + 1) (start + item.width)
          items) start tree ∨
      InSequence (fun _ trees => trees = [] ∧ least ≤ count) start tree := by
  constructor
  · rintro ⟨trees, rfl, hrounds⟩
    cases trees with
    | nil => exact .inr ⟨[], rfl, rfl, (rounds_nil_iff.mp hrounds).1⟩
    | cons item items => exact .inl ⟨_, rfl, item, items, rfl, rounds_cons_iff.mp hrounds⟩
  · rintro (⟨_, rfl, item, items, rfl, hrounds⟩ | ⟨_, rfl, rfl, henough⟩)
    · exact ⟨_, rfl, rounds_cons_iff.mpr hrounds⟩
    · exact ⟨_, rfl, rounds_nil_iff.mpr ⟨henough, hmost⟩⟩

/-- A match may stay as it is where enough has been done. -/
theorem finds_here (partials : List (Partial W)) (enough : Prop) [Decidable enough] :
    Finds (InSequence fun _ trees => trees = ([] : List (Tree P)) ∧ enough) partials
      (if enough then partials else []) := by
  split
  · rename_i henough
    exact Finds.refl.congr fun found _ tree => by simp [henough]
  · rename_i hshort
    refine Finds.none fun found _ tree htree => ?_
    obtain ⟨_, _, _, henough⟩ := htree
    exact hshort henough

theorem consumed_le_of_mem {family : Nat → Tree P → Prop} {partials laters : List (Partial W)}
    (hfinds : Finds family partials laters)
    (hpartials : ∀ found ∈ partials, found.consumed ≤ query.tokens.length)
    (hfits : ∀ start tree, family start tree → tree.Fits query opened start) :
    ∀ later ∈ laters, later.consumed ≤ query.tokens.length := by
  intro later hlater
  obtain ⟨found, hfound, tree, htree, rfl⟩ := hfinds.sound later hlater
  exact (hfits _ tree htree).add_width_le (hpartials found hfound)

/-- One more iteration carries matches on over the trees that fit and, if need be, have a word. -/
theorem finds_iteration (least : Nat) {step : Partial W → List (Partial W)}
    (hstep : Carries query (scope.Fitting query opened body) step) (count : Nat)
    {partials : List (Partial W)}
    (hpartials : ∀ found ∈ partials, found.consumed ≤ query.tokens.length) :
    Finds (fun start tree => scope.Fitting query opened body start tree ∧
        (least ≤ count → 0 < tree.width)) partials
      (Partial.firsts (partials.flatMap fun found =>
        (step found).filter fun later => count < least || found.consumed < later.consumed)) := by
  refine (Finds.flatMap fun found hfound => ?_).firsts
  refine (hstep found (hpartials found hfound)).filter fun later tree hagrees => ?_
  have hplace : later.consumed = found.consumed + tree.width := hagrees.1
  simp only [Bool.or_eq_true, decide_eq_true_eq, hplace]
  omega

/-- Iterating a step carries matches on over all numbers of iterations there may be. -/
theorem finds_iterations (least : Nat) (most? : Option Nat)
    {step : Partial W → List (Partial W)}
    (hstep : Carries query (scope.Fitting query opened body) step) (allowance : Nat) {count : Nat}
    {partials : List (Partial W)} (hmost : ∀ most ∈ most?, count ≤ most)
    (hpartials : ∀ found ∈ partials, found.consumed ≤ query.tokens.length) :
    Finds (InSequence (Rounds scope query opened body least most? allowance count)) partials
      (Partial.iterations step least most? allowance count partials) := by
  have hhere := finds_here (P := P) partials (least ≤ count)
  induction allowance generalizing count partials with
  | zero =>
      rw [Partial.iterations]
      exact hhere.congr fun _ _ _ => (inSequence_rounds_iff_of_full hmost (.inl rfl)).symm
  | succ allowance ih =>
      rw [Partial.iterations]
      split
      · rename_i hfull
        obtain ⟨most, hmem, hle⟩ := (Option.any_eq_true _ _).mp hfull
        exact hhere.congr fun _ _ _ =>
          (inSequence_rounds_iff_of_full hmost (.inr ⟨most, hmem, of_decide_eq_true hle⟩)).symm
      · rename_i hroom
        have hnextMost : ∀ most ∈ most?, count + 1 ≤ most := by
          intro most hmem
          by_contra hle
          exact hroom ((Option.any_eq_true _ _).mpr ⟨most, hmem, by simp; omega⟩)
        have hnext := finds_iteration least hstep count hpartials
        dsimp only
        split
        · rename_i hempty
          rw [List.isEmpty_iff.mp hempty] at hnext
          exact ((hnext.trans Finds.nil).append hhere).congr fun _ _ _ =>
            (inSequence_rounds_succ_iff hmost).symm
        · have hmore := ih hnextMost
            (consumed_le_of_mem hnext hpartials fun _ _ htree => htree.1.2) (finds_here _ _)
          exact ((hnext.trans hmore).append hhere).congr fun _ _ _ =>
            (inSequence_rounds_succ_iff hmost).symm

omit [BranchWeight P] in
/-- Iterations of which none beyond some number is empty are no more than that and the words. -/
theorem length_le_of_wide {trees : List (Tree P)} {least : Nat}
    (hwide : ∀ tree ∈ trees.drop least, 0 < tree.width) :
    trees.length ≤ least + (Tree.sequence trees).width := by
  induction trees generalizing least with
  | nil => exact Nat.zero_le _
  | cons tree trees ih =>
      rw [List.length_cons, Tree.width_cons]
      cases least with
      | zero =>
          obtain ⟨hfirst, hrest⟩ := List.forall_mem_cons.mp hwide
          have hlength : trees.length ≤ 0 + (Tree.sequence trees).width := ih hrest
          omega
      | succ least =>
          have hlength := ih hwide
          omega

/-- A repetition carries matches on over its trees, with the allowance that it is given. -/
theorem carries_repeated {step : Partial W → List (Partial W)}
    (hstep : Carries query (scope.Fitting query opened body) step) (least : Nat)
    (most? : Option Nat) :
    Carries query (scope.Fitting query opened (.repetition body least most?))
      (Partial.repeated query step least most?) := by
  intro found hfound
  have hstart : ∀ other ∈ [found], other.consumed ≤ query.tokens.length := by simpa using hfound
  have hfinds := (finds_iterations least most? hstep
    (least + (query.tokens.length - found.consumed) + 1) (fun _ _ => Nat.zero_le _) hstart).firsts
  refine hfinds.transfer ?_ ?_
  · rintro _ ⟨trees, rfl, hrounds⟩
    have hleast := hrounds.least_le
    have hmost := hrounds.le_most
    have hwide := hrounds.wide
    rw [Nat.zero_add] at hleast
    simp only [Nat.zero_add] at hmost
    exact ⟨.iterations least trees, ⟨.repetition hleast hmost hrounds.derives,
      Tree.fits_iterations_iff.mpr ⟨hwide, hrounds.fits⟩⟩, rfl⟩
  · rintro tree ⟨hderives, hfits⟩
    cases hderives with
    | repetition hleast hmost htrees =>
        obtain ⟨hwide, hfitsAll⟩ := Tree.fits_iterations_iff.mp hfits
        have hlength := length_le_of_wide hwide
        have hend := hfitsAll.add_width_le hfound
        refine ⟨_, ⟨_, rfl, htrees, hfitsAll, ?_, ?_, hwide, ?_⟩, rfl⟩
        · rwa [Nat.zero_add]
        · simpa using hmost
        · omega

theorem finds_literal (text : String) (found : Partial W) :
    Finds (scope.Fitting query opened (.literal text)) [found]
      (if query.wordsMatch (Text.wordsOf text) (query.tokens.drop found.consumed) then
        [{ found with consumed := found.consumed + (Text.wordsOf text).length }]
      else []) := by
  have hpast : found.past (.word text : Tree P) =
      { found with consumed := found.consumed + (Text.wordsOf text).length } := by
    simp [Partial.past]
  have hfitting : ∀ tree, scope.Fitting query opened (.literal text) found.consumed tree ↔
      tree = .word text ∧
        query.wordsMatch (Text.wordsOf text) (query.tokens.drop found.consumed) = true := by
    intro tree
    constructor
    · rintro ⟨hderives, hfits⟩
      cases hderives with
      | literal => exact ⟨rfl, Tree.fits_word_iff.mp hfits⟩
    · rintro ⟨rfl, hmatch⟩
      exact ⟨.literal text, Tree.fits_word_iff.mpr hmatch⟩
  split
  · rename_i hmatch
    refine ⟨fun later hlater => ?_, fun given hgiven tree htree => ?_⟩
    · obtain rfl := List.mem_singleton.mp hlater
      exact ⟨found, List.mem_singleton_self _, _, (hfitting _).mpr ⟨rfl, hmatch⟩, hpast.symm⟩
    · obtain rfl := List.mem_singleton.mp hgiven
      obtain ⟨rfl, -⟩ := (hfitting tree).mp htree
      exact ⟨_, List.mem_singleton_self _, by rw [hpast]; exact ⟨rfl, rfl⟩⟩
  · rename_i hmismatch
    refine Finds.none fun given hgiven tree htree => ?_
    obtain rfl := List.mem_singleton.mp hgiven
    exact hmismatch ((hfitting tree).mp htree).2

/-- A branch carries a match on over the trees of its body, if it can be taken. -/
theorem finds_branch (probability : P) {found : Partial W} {laters : List (Partial W)}
    (hbody : Finds (scope.Fitting query opened body)
      [{ found with score := found.score + Logarithm.ln probability }] laters) :
    Finds (fun start tree => 0 < probability ∧ ∃ inner, tree = .branch probability inner ∧
        scope.Fitting query opened body start inner) [found]
      (if BranchWeight.isPositive probability then laters else []) := by
  split
  · rename_i hpositive
    refine hbody.transfer (fun tree htree => ?_) ?_
    · exact ⟨.branch probability tree, ⟨of_decide_eq_true hpositive, tree, rfl, htree⟩,
        Partial.past_branch ..⟩
    · rintro _ ⟨-, inner, rfl, hinner⟩
      exact ⟨inner, hinner, Partial.past_branch ..⟩
  · rename_i hzero
    exact Finds.none fun _ _ _ htree => hzero (decide_eq_true htree.1)

mutual

/-- If references carry matches on over their trees, so do all expansions. -/
theorem carries_extend {follow : Reference → Partial W → List (Partial W)}
    (hfollow : ∀ link, Carries query (scope.Fitting query opened (.reference link)) (follow link))
    (expansion : Expansion P) :
    Carries query (scope.Fitting query opened expansion) (expansion.extend query follow) := by
  intro found hfound
  match expansion with
  | .literal text =>
      rw [Expansion.extend]
      exact finds_literal text found
  | .reference link => exact hfollow link found hfound
  | .sequence items =>
      refine (finds_extendItems hfollow items (by simpa using hfound)).congr
        fun _ _ tree => ?_
      constructor
      · rintro ⟨trees, rfl, hfitting⟩
        exact hfitting
      · rintro ⟨hderives, hfits⟩
        cases hderives with
        | sequence hlength hitems => exact ⟨_, rfl, .sequence hlength hitems, hfits⟩
  | .alternation branches =>
      exact (finds_extendBranches hfollow branches found hfound).firsts
  | .repetition body least most? =>
      exact carries_repeated (carries_extend hfollow body) least most? found hfound
  | .optional body =>
      refine (carries_repeated (carries_extend hfollow body) 0 (some 1) found hfound).congr
        fun _ _ tree => and_congr_left fun _ => ⟨.optional, fun hderives => ?_⟩
      cases hderives with
      | optional htree => exact htree
  | .tagged body tags =>
      refine (carries_extend hfollow body { found with tags := found.tags.insertAll tags }
        hfound).transfer ?_ ?_
      · rintro tree ⟨hderives, hfits⟩
        exact ⟨.tagged tree tags, ⟨.tagged hderives, Tree.fits_tagged_iff.mpr hfits⟩,
          Partial.past_tagged ..⟩
      · rintro _ ⟨hderives, hfits⟩
        cases hderives with
        | tagged hbody =>
            exact ⟨_, ⟨hbody, Tree.fits_tagged_iff.mp hfits⟩, Partial.past_tagged ..⟩

/-- The items of a sequence carry matches on over their trees one behind another. -/
theorem finds_extendItems {follow : Reference → Partial W → List (Partial W)}
    (hfollow : ∀ link, Carries query (scope.Fitting query opened (.reference link)) (follow link))
    (items : List (Expansion P)) {partials : List (Partial W)}
    (hpartials : ∀ found ∈ partials, found.consumed ≤ query.tokens.length) :
    Finds (InSequence fun start trees =>
        scope.Fitting query opened (.sequence items) start (.sequence trees)) partials
      (Expansion.extendItems query follow items partials) := by
  match items with
  | [] =>
      rw [Expansion.extendItems]
      refine Finds.refl.congr fun _ _ tree => ?_
      constructor
      · rintro ⟨_, rfl, rfl⟩
        exact ⟨[], rfl, Derives.sequence_nil_iff.mpr rfl, Tree.fits_nil⟩
      · rintro ⟨trees, rfl, hderives, -⟩
        exact ⟨trees, rfl, Derives.sequence_nil_iff.mp hderives⟩
  | item :: items =>
      rw [Expansion.extendItems]
      have hfirst : Finds (scope.Fitting query opened item) partials
          (Partial.firsts (partials.flatMap (item.extend query follow))) :=
        (Finds.flatMap fun found hfound => carries_extend hfollow item found
          (hpartials found hfound)).firsts
      have hrest := finds_extendItems hfollow items
        (consumed_le_of_mem hfirst hpartials fun _ _ htree => htree.2)
      refine (hfirst.trans hrest).congr fun _ _ tree => ?_
      constructor
      · rintro ⟨_, rfl, tree, trees, rfl, ⟨htree, hfit⟩, htrees, hfits⟩
        exact ⟨_, rfl, Derives.sequence_cons_iff.mpr ⟨tree, trees, rfl, htree, htrees⟩,
          Tree.fits_cons_iff.mpr ⟨hfit, hfits⟩⟩
      · rintro ⟨_, rfl, hderives, hfits⟩
        obtain ⟨tree, trees, rfl, htree, htrees⟩ := Derives.sequence_cons_iff.mp hderives
        obtain ⟨hfit, hfitsRest⟩ := Tree.fits_cons_iff.mp hfits
        exact ⟨_, rfl, tree, trees, rfl, ⟨htree, hfit⟩, htrees, hfitsRest⟩

/-- The branches of an alternation carry a match on over the trees of those that can be taken. -/
theorem finds_extendBranches {follow : Reference → Partial W → List (Partial W)}
    (hfollow : ∀ link, Carries query (scope.Fitting query opened (.reference link)) (follow link))
    (branches : List (Branch P (Expansion P))) (found : Partial W)
    (hfound : found.consumed ≤ query.tokens.length) :
    Finds (scope.Fitting query opened (.alternation branches)) [found]
      (Expansion.extendBranches query follow branches found) := by
  match branches with
  | [] =>
      rw [Expansion.extendBranches]
      refine Finds.none fun _ _ tree htree => ?_
      cases htree.1 with
      | alternation hmem => cases hmem
  | ⟨weight?, probability, body⟩ :: branches =>
      rw [Expansion.extendBranches]
      have hrest := finds_extendBranches hfollow branches found hfound
      have hbody := carries_extend hfollow body
        { found with score := found.score + Logarithm.ln probability } hfound
      refine ((finds_branch probability hbody).append hrest).congr fun _ _ tree => ?_
      constructor
      · rintro (⟨hpositive, tree, rfl, htree, hfits⟩ | ⟨hderives, hfits⟩)
        · exact ⟨.alternation (List.mem_cons_self ..)
            hpositive htree, Tree.fits_branch_iff.mpr hfits⟩
        · cases hderives with
          | alternation hmem hpositive htree =>
              exact ⟨.alternation (List.mem_cons_of_mem _ hmem) hpositive htree, hfits⟩
      · rintro ⟨hderives, hfits⟩
        cases hderives with
        | alternation hmem hpositive htree =>
            rcases List.mem_cons.mp hmem with rfl | hmem
            · exact .inl ⟨hpositive, _, rfl, htree, Tree.fits_branch_iff.mp hfits⟩
            · exact .inr ⟨.alternation hmem hpositive htree, hfits⟩

end

end SpeechGrammar
