import Mathlib.Data.List.Induction
import SpeechGrammar.Deduction.Basic

/-!
# Keeping first values

A list is thinned out from left to right: a value is kept unless it is the same
as one that is kept already.  Nothing is added, every value is the same as one
that is kept, and no two values that are kept are the same.
-/

namespace SpeechGrammar

/-- The values that none before them is the same as. -/
def firstsBy {α : Type} (same : α → α → Bool) (values : List α) : List α :=
  (values.foldl (fun kept value => if kept.any (same value) then kept else value :: kept)
    []).reverse

section FirstsBy

variable {α : Type} {same : α → α → Bool}

theorem firstsBy_concat (values : List α) (value : α) :
    firstsBy same (values ++ [value]) =
      if (firstsBy same values).any (same value) then firstsBy same values
      else firstsBy same values ++ [value] := by
  simp only [firstsBy, List.foldl_append, List.foldl_cons, List.foldl_nil, List.any_reverse]
  split <;> simp

theorem mem_of_mem_firstsBy {values : List α} {value : α} (hmem : value ∈ firstsBy same values) :
    value ∈ values := by
  induction values using List.reverseRecOn with
  | nil => cases hmem
  | append_singleton values last ih =>
      rw [firstsBy_concat] at hmem
      split at hmem
      · exact List.mem_append_left _ (ih hmem)
      · rcases List.mem_append.mp hmem with hmem | hmem
        · exact List.mem_append_left _ (ih hmem)
        · exact List.mem_append_right _ hmem

theorem exists_firstsBy_of_mem (hrefl : ∀ value, same value value = true) {values : List α}
    {value : α} (hmem : value ∈ values) :
    ∃ first ∈ firstsBy same values, same value first = true := by
  induction values using List.reverseRecOn with
  | nil => cases hmem
  | append_singleton values last ih =>
      rw [firstsBy_concat]
      rcases List.mem_append.mp hmem with hmem | hmem
      · obtain ⟨first, hfirst, hsame⟩ := ih hmem
        refine ⟨first, ?_, hsame⟩
        split
        · exact hfirst
        · exact List.mem_append_left _ hfirst
      · obtain rfl := List.mem_singleton.mp hmem
        split
        · rename_i hany
          exact List.any_eq_true.mp hany
        · exact ⟨value, by simp, hrefl value⟩

theorem pairwise_firstsBy (values : List α) :
    (firstsBy same values).Pairwise fun earlier later => same later earlier = false := by
  induction values using List.reverseRecOn with
  | nil => exact List.Pairwise.nil
  | append_singleton values last ih =>
      rw [firstsBy_concat]
      split
      · exact ih
      · rename_i hnone
        refine List.pairwise_append.mpr ⟨ih, List.pairwise_singleton _ _, ?_⟩
        rintro earlier hearlier later hlater
        obtain rfl := List.mem_singleton.mp hlater
        exact Bool.eq_false_iff.mpr fun hsame =>
          hnone (List.any_eq_true.mpr ⟨earlier, hearlier, hsame⟩)

/-- Values may be changed before or after, if they are told apart alike when they are changed. -/
theorem firstsBy_map {β : Type} {alike : β → β → Bool} {change : β → α}
    (halike : ∀ first second, same (change first) (change second) = alike first second)
    (values : List β) :
    firstsBy same (values.map change) = (firstsBy alike values).map change := by
  induction values using List.reverseRecOn with
  | nil => rfl
  | append_singleton values last ih =>
      have hany : ((firstsBy alike values).map change).any (same (change last)) =
          (firstsBy alike values).any (alike last) := by
        rw [List.any_map]
        exact congrArg (List.any _) (funext (halike last))
      rw [List.map_append, List.map_singleton, firstsBy_concat, firstsBy_concat, ih, hany]
      split
      · rfl
      · rw [List.map_append, List.map_singleton]

/-!
Where being the same means having the same key, only keys decide what is kept,
and so values may be left out before others are worked out from them as well.
-/

section Keys

variable {κ : Type} {key : α → κ}
  (hsame : ∀ first second, same first second = true ↔ key first = key second)

include hsame

theorem mem_map_firstsBy_iff {values : List α} {name : κ} :
    name ∈ (firstsBy same values).map key ↔ name ∈ values.map key := by
  simp only [List.mem_map]
  constructor
  · rintro ⟨value, hmem, rfl⟩
    exact ⟨value, mem_of_mem_firstsBy hmem, rfl⟩
  · rintro ⟨value, hmem, rfl⟩
    obtain ⟨first, hfirst, hagrees⟩ :=
      exists_firstsBy_of_mem (fun value => (hsame value value).mpr rfl) hmem
    exact ⟨first, hfirst, ((hsame _ _).mp hagrees).symm⟩

theorem firstsBy_concat_of_mem {values : List α} {value : α} (hmem : key value ∈ values.map key) :
    firstsBy same (values ++ [value]) = firstsBy same values := by
  obtain ⟨first, hfirst, heq⟩ := List.mem_map.mp ((mem_map_firstsBy_iff hsame).mpr hmem)
  rw [firstsBy_concat, if_pos]
  exact List.any_eq_true.mpr ⟨first, hfirst, (hsame _ _).mpr heq.symm⟩

theorem firstsBy_concat_of_not_mem {values : List α} {value : α}
    (hnew : key value ∉ values.map key) :
    firstsBy same (values ++ [value]) = firstsBy same values ++ [value] := by
  rw [firstsBy_concat, if_neg]
  intro hany
  obtain ⟨first, hfirst, hagrees⟩ := List.any_eq_true.mp hany
  exact hnew ((mem_map_firstsBy_iff hsame).mp
    (List.mem_map.mpr ⟨first, hfirst, ((hsame _ _).mp hagrees).symm⟩))

/-- Values whose keys have all been there change nothing. -/
theorem firstsBy_append_of_subset {values more : List α}
    (hsubset : ∀ value ∈ more, key value ∈ values.map key) :
    firstsBy same (values ++ more) = firstsBy same values := by
  induction more using List.reverseRecOn with
  | nil => rw [List.append_nil]
  | append_singleton more last ih =>
      have hlast : key last ∈ (values ++ more).map key := by
        rw [List.map_append]
        exact List.mem_append_left _ (hsubset last (by simp))
      rw [← List.append_assoc, firstsBy_concat_of_mem hsame hlast]
      exact ih fun value hmem => hsubset value (List.mem_append_left _ hmem)

/-- Only the first values of a list decide which values behind it are kept. -/
theorem firstsBy_append_congr {values values' more more' : List α}
    (hvalues : firstsBy same values = firstsBy same values')
    (hmore : firstsBy same more = firstsBy same more') :
    firstsBy same (values ++ more) = firstsBy same (values' ++ more') := by
  have hleft : ∀ more : List α,
      firstsBy same (values ++ more) = firstsBy same (values' ++ more) := by
    intro more
    induction more using List.reverseRecOn with
    | nil => simpa using hvalues
    | append_singleton more last ih =>
        have hkeys : key last ∈ (values ++ more).map key ↔
            key last ∈ (values' ++ more).map key := by
          rw [← mem_map_firstsBy_iff hsame, ih, mem_map_firstsBy_iff hsame]
        rw [← List.append_assoc, ← List.append_assoc]
        by_cases hmem : key last ∈ (values ++ more).map key
        · rw [firstsBy_concat_of_mem hsame hmem, firstsBy_concat_of_mem hsame (hkeys.mp hmem), ih]
        · rw [firstsBy_concat_of_not_mem hsame hmem,
            firstsBy_concat_of_not_mem hsame (fun hother => hmem (hkeys.mpr hother)), ih]
  have hright : ∀ more : List α,
      firstsBy same (values' ++ firstsBy same more) = firstsBy same (values' ++ more) := by
    intro more
    induction more using List.reverseRecOn with
    | nil => rfl
    | append_singleton more last ih =>
        have hkeys : key last ∈ (values' ++ firstsBy same more).map key ↔
            key last ∈ (values' ++ more).map key := by
          rw [← mem_map_firstsBy_iff hsame, ih, mem_map_firstsBy_iff hsame]
        rw [← List.append_assoc]
        by_cases hmem : key last ∈ more.map key
        · have hlast : key last ∈ (values' ++ more).map key := by
            rw [List.map_append]
            exact List.mem_append_right _ hmem
          rw [firstsBy_concat_of_mem hsame hmem, firstsBy_concat_of_mem hsame hlast, ih]
        · rw [firstsBy_concat_of_not_mem hsame hmem, ← List.append_assoc]
          by_cases hlast : key last ∈ (values' ++ more).map key
          · rw [firstsBy_concat_of_mem hsame hlast,
              firstsBy_concat_of_mem hsame (hkeys.mpr hlast), ih]
          · rw [firstsBy_concat_of_not_mem hsame hlast,
              firstsBy_concat_of_not_mem hsame (fun hother => hlast (hkeys.mp hother)), ih]
  rw [hleft, ← hright more, hmore, hright]

/-- Thinning out what each value leads to changes nothing in the end. -/
theorem firstsBy_flatMap_congr {β : Type} {step step' : β → List α}
    (hstep : ∀ value, firstsBy same (step value) = firstsBy same (step' value))
    (values : List β) :
    firstsBy same (values.flatMap step) = firstsBy same (values.flatMap step') := by
  induction values with
  | nil => rfl
  | cons value values ih =>
      rw [List.flatMap_cons, List.flatMap_cons]
      exact firstsBy_append_congr hsame (hstep value) ih

/--
Values that are left out lead to nothing that would be kept, where what a value
leads to has keys that are decided by its own key.
-/
theorem firstsBy_flatMap_firstsBy {β ι : Type} {alike : β → β → Bool} {place : β → ι}
    (halike : ∀ first second, alike first second = true ↔ place first = place second)
    {step : β → List α}
    (huniform : ∀ first second, place first = place second →
      (step first).map key ⊆ (step second).map key) (values : List β) :
    firstsBy same ((firstsBy alike values).flatMap step) =
      firstsBy same (values.flatMap step) := by
  induction values using List.reverseRecOn with
  | nil => rfl
  | append_singleton values last ih =>
      rw [List.flatMap_append, List.flatMap_singleton]
      by_cases hmem : place last ∈ values.map place
      · rw [firstsBy_concat_of_mem halike hmem, ih]
        obtain ⟨earlier, hearlier, heq⟩ := List.mem_map.mp hmem
        refine (firstsBy_append_of_subset hsame fun later hlater => ?_).symm
        obtain ⟨other, hother, hkey⟩ :=
          List.mem_map.mp (huniform _ _ heq.symm (List.mem_map_of_mem hlater))
        exact List.mem_map.mpr ⟨other, List.mem_flatMap.mpr ⟨earlier, hearlier, hother⟩, hkey⟩
      · rw [firstsBy_concat_of_not_mem halike hmem, List.flatMap_append, List.flatMap_singleton]
        exact firstsBy_append_congr hsame ih rfl

theorem firstsBy_map_filter_congr {β ι : Type} {alike : β → β → Bool} {place : β → ι}
    (halike : ∀ first second, alike first second = true ↔ place first = place second)
    (test : β → Bool) (change : β → α)
    (htest : ∀ first second, place first = place second → test first = test second)
    (hchange : ∀ first second, place first = place second →
      key (change first) = key (change second))
    {values others : List β} (heq : firstsBy alike values = firstsBy alike others) :
    firstsBy same ((values.filter test).map change) =
      firstsBy same ((others.filter test).map change) := by
  have hmap : ∀ values : List β, (values.filter test).map change =
      values.flatMap fun value => if test value then [change value] else [] := by
    intro values
    induction values with
    | nil => rfl
    | cons value values ih =>
        rw [List.flatMap_cons, ← ih, List.filter_cons]
        split <;> rfl
  have huniform : ∀ first second, place first = place second →
      (if test first then [change first] else []).map key ⊆
        (if test second then [change second] else []).map key := by
    intro first second hplace
    rw [htest first second hplace]
    split
    · simp [hchange first second hplace]
    · exact List.Subset.refl _
  rw [hmap, hmap, ← firstsBy_flatMap_firstsBy hsame halike huniform values, heq,
    firstsBy_flatMap_firstsBy hsame halike huniform]

end Keys

end FirstsBy

namespace Partial

variable {W : Type}

/-- Two matches stand at the same token with the same tags. -/
def Agrees (first second : Partial W) : Prop :=
  first.consumed = second.consumed ∧ first.tags = second.tags

theorem agrees_eq_true_iff {first second : Partial W} :
    agrees first second = true ↔ first.Agrees second := by
  simp [agrees, Agrees]

theorem mem_of_mem_firsts {partials : List (Partial W)} {found : Partial W}
    (hmem : found ∈ firsts partials) : found ∈ partials :=
  mem_of_mem_firstsBy hmem

theorem exists_firsts_of_mem {partials : List (Partial W)} {found : Partial W}
    (hmem : found ∈ partials) : ∃ first ∈ firsts partials, first.Agrees found := by
  obtain ⟨first, hfirst, hsame⟩ :=
    exists_firstsBy_of_mem (fun _ => agrees_eq_true_iff.mpr ⟨rfl, rfl⟩) hmem
  have hagrees := agrees_eq_true_iff.mp hsame
  exact ⟨first, hfirst, hagrees.1.symm, hagrees.2.symm⟩

/-- Of some matches some are kept. -/
theorem firsts_eq_nil_iff {partials : List (Partial W)} : firsts partials = [] ↔ partials = [] := by
  constructor
  · intro hnil
    refine List.eq_nil_iff_forall_not_mem.mpr fun found hfound => ?_
    obtain ⟨first, hfirst, -⟩ := exists_firsts_of_mem hfound
    rw [hnil] at hfirst
    cases hfirst
  · rintro rfl
    rfl

end Partial

end SpeechGrammar
