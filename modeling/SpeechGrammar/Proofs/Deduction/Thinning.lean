import SpeechGrammar.Proofs.Deduction.Firsts
import SpeechGrammar.Deduction.Basic

/-!
# Thinning out on the way

The search leaves out matches that agree with earlier ones wherever matches
are put together.  The same search can be made without that: it goes through
every way and may find a number of matches that is exponential in the tokens.
Of two matches that agree the second leads to matches that agree with those
the first leads to, and so the derivations are the same ones, in the same
order and with the same scores, when later ones are left out at the end only.

Nothing is assumed about weights, and so scores are sums of the same addends,
added up in the same order.
-/

namespace SpeechGrammar

variable {P W : Type}

namespace Partial

/-- All ways to go on with iterations of a step, where none is left out. -/
def allIterations (step : Partial W → List (Partial W)) (least : Nat) (most? : Option Nat) :
    Nat → Nat → List (Partial W) → List (Partial W)
  | 0, count, current => if least ≤ count then current else []
  | allowance + 1, count, current =>
      let here := if least ≤ count then current else []
      if most?.any (· ≤ count) then
        here
      else
        let next := current.flatMap fun found =>
          (step found).filter fun later => count < least || found.consumed < later.consumed
        if next.isEmpty then here
        else allIterations step least most? allowance (count + 1) next ++ here

def allRepeated (query : Query) (step : Partial W → List (Partial W)) (least : Nat)
    (most? : Option Nat) (found : Partial W) : List (Partial W) :=
  allIterations step least most? (least + (query.tokens.length - found.consumed) + 1) 0 [found]

end Partial

namespace Expansion

variable [BranchWeight P] [LogWeight W] [Logarithm P W]

mutual

/-- All ways in which an expansion carries a match on, where none is left out. -/
def extendAll (query : Query) (follow : Reference → Partial W → List (Partial W)) :
    Expansion P → Partial W → List (Partial W)
  | .literal text, found =>
      let words := Text.wordsOf text
      if query.wordsMatch words (query.tokens.drop found.consumed) then
        [{ found with consumed := found.consumed + words.length }]
      else
        []
  | .reference link, found => follow link found
  | .sequence items, found => extendAllItems query follow items [found]
  | .alternation branches, found => extendAllBranches query follow branches found
  | .repetition body least most?, found =>
      Partial.allRepeated query (body.extendAll query follow) least most? found
  | .optional body, found =>
      Partial.allRepeated query (body.extendAll query follow) 0 (some 1) found
  | .tagged body tags, found =>
      body.extendAll query follow { found with tags := found.tags.insertAll tags }

def extendAllItems (query : Query) (follow : Reference → Partial W → List (Partial W)) :
    List (Expansion P) → List (Partial W) → List (Partial W)
  | [], partials => partials
  | item :: items, partials =>
      extendAllItems query follow items (partials.flatMap (item.extendAll query follow))

def extendAllBranches (query : Query) (follow : Reference → Partial W → List (Partial W)) :
    List (Branch P (Expansion P)) → Partial W → List (Partial W)
  | [], _ => []
  | ⟨_, probability, body⟩ :: branches, found =>
      (if BranchWeight.isPositive probability then
        body.extendAll query follow
          { found with score := found.score + Logarithm.ln probability }
       else
        []) ++
        extendAllBranches query follow branches found

end

end Expansion

namespace Scope

variable [BranchWeight P] [LogWeight W] [Logarithm P W]

def followAll (scope : Scope P) (query : Query) :
    Nat → List (Target × Nat) → Reference → Partial W → List (Partial W)
  | room, active, link, found =>
      match link.target? with
      | none => []
      | some target =>
          if (target, found.consumed) ∈ active then
            []
          else
            match scope.follow? target, room with
            | none, _ => []
            | some _, 0 => []
            | some rule, room + 1 =>
                rule.body.extendAll query
                  (scope.followAll query room ((target, found.consumed) :: active)) found

/-- All derivations of some tokens, where later ones are left out at the end only. -/
def deduceAll (scope : Scope P) (rule : String) (tokens : List String)
    (assignments : List Assignment) (policy : MatchPolicy) :
    Except (Refusal P) (Deduction W) := do
  let (target, top) ← scope.grammar.public rule
  match scope.unusableBelow? target with
  | some reason => .error (.unusable reason)
  | none =>
      let query : Query := ⟨tokens, policy, scope.grammar.vocabulary⟩
      let room := scope.ruleCount * (tokens.length + 1)
      let partials : List (Partial W) :=
        top.body.extendAll query (scope.followAll query room [(target, 0)]) .start
      return { derivations := Derivation.firsts (complete tokens.length assignments partials) }

end Scope

/-! ## Matches that agree lead to matches that agree -/

namespace Partial

/-- Where a match stands and what it has collected. -/
def place (found : Partial W) : Nat × TagSet := (found.consumed, found.tags)

theorem agrees_iff_place_eq (first second : Partial W) :
    agrees first second = true ↔ first.place = second.place := by
  rw [agrees_eq_true_iff, place, place, Prod.mk.injEq]
  rfl

/-- A step that leads matches that agree to matches that agree. -/
def Uniform (step : Partial W → List (Partial W)) : Prop :=
  ∀ first second, first.place = second.place →
    (step first).map place ⊆ (step second).map place

/-- Where some matches get to is decided by the places they stand at. -/
theorem Uniform.flatMap {step : Partial W → List (Partial W)} (hstep : Uniform step)
    {current other : List (Partial W)} (hsubset : current.map place ⊆ other.map place) :
    (current.flatMap step).map place ⊆ (other.flatMap step).map place := by
  intro name hname
  obtain ⟨later, hlater, rfl⟩ := List.mem_map.mp hname
  obtain ⟨found, hfound, hlater⟩ := List.mem_flatMap.mp hlater
  obtain ⟨given, hgiven, heq⟩ := List.mem_map.mp (hsubset (List.mem_map_of_mem hfound))
  obtain ⟨reached, hreached, hplace⟩ :=
    List.mem_map.mp (hstep found given heq.symm (List.mem_map_of_mem hlater))
  exact List.mem_map.mpr ⟨reached, List.mem_flatMap.mpr ⟨given, hgiven, hreached⟩, hplace⟩

theorem Uniform.filter {step : Partial W → List (Partial W)} (hstep : Uniform step)
    (test : Nat → Nat → Bool) :
    Uniform fun found => (step found).filter fun later => test found.consumed later.consumed := by
  intro first second heq name hname
  obtain ⟨later, hlater, rfl⟩ := List.mem_map.mp hname
  obtain ⟨hlater, hpass⟩ := List.mem_filter.mp hlater
  obtain ⟨other, hother, hplace⟩ :=
    List.mem_map.mp (hstep first second heq (List.mem_map_of_mem hlater))
  have hfrom : first.consumed = second.consumed := congrArg Prod.fst heq
  have hto : other.consumed = later.consumed := congrArg Prod.fst hplace
  exact List.mem_map.mpr ⟨other, List.mem_filter.mpr ⟨hother, by rw [← hfrom, hto]; exact hpass⟩,
    hplace⟩

theorem Uniform.allIterations {step : Partial W → List (Partial W)} (hstep : Uniform step)
    (least : Nat) (most? : Option Nat) (allowance : Nat) {count : Nat}
    {current other : List (Partial W)} (hsubset : current.map place ⊆ other.map place) :
    (allIterations step least most? allowance count current).map place ⊆
      (allIterations step least most? allowance count other).map place := by
  have hhere : (if least ≤ count then current else []).map place ⊆
      (if least ≤ count then other else []).map place := by
    split
    · exact hsubset
    · exact List.Subset.refl _
  induction allowance generalizing count current other with
  | zero => exact hhere
  | succ allowance ih =>
      rw [Partial.allIterations, Partial.allIterations]
      generalize (if least ≤ count then current else []) = here at hhere ⊢
      generalize (if least ≤ count then other else []) = here' at hhere ⊢
      split
      · exact hhere
      · have hnext := (hstep.filter fun start stop => count < least || start < stop).flatMap hsubset
        dsimp only at hnext ⊢
        split
        · split
          · exact hhere
          · rw [List.map_append]
            exact List.subset_append_of_subset_right _ hhere
        · rename_i hsome
          split
          · rename_i hnone
            rw [List.isEmpty_iff.mp hnone] at hnext
            refine absurd (List.isEmpty_iff.mpr ?_) hsome
            exact List.map_eq_nil_iff.mp (List.subset_nil.mp hnext)
          · rw [List.map_append, List.map_append]
            refine List.append_subset.mpr ⟨List.subset_append_of_subset_left _ (ih hnext ?_),
              List.subset_append_of_subset_right _ hhere⟩
            split
            · exact hnext
            · exact List.Subset.refl _

theorem Uniform.allRepeated {query : Query} {step : Partial W → List (Partial W)}
    (hstep : Uniform step) (least : Nat) (most? : Option Nat) :
    Uniform (allRepeated query step least most?) := by
  intro first second heq
  have hfrom : first.consumed = second.consumed := congrArg Prod.fst heq
  rw [Partial.allRepeated, Partial.allRepeated, hfrom]
  exact hstep.allIterations least most? _ (by simp [heq])

end Partial

open Partial (Uniform)

namespace Expansion

variable [BranchWeight P] [LogWeight W] [Logarithm P W]

mutual

/-- If references lead matches that agree to matches that agree, so do all expansions. -/
theorem uniform_extendAll {query : Query} {follow : Reference → Partial W → List (Partial W)}
    (hfollow : ∀ link, Uniform (follow link)) (expansion : Expansion P) :
    Uniform (expansion.extendAll query follow) := by
  intro first second heq
  have hconsumed : first.consumed = second.consumed := congrArg Prod.fst heq
  have htags : first.tags = second.tags := congrArg Prod.snd heq
  match expansion with
  | .literal text =>
      rw [extendAll, extendAll, hconsumed]
      split
      · simp [Partial.place, htags]
      · exact List.Subset.refl _
  | .reference link => exact hfollow link first second heq
  | .sequence items => exact subset_extendAllItems hfollow items (by simp [heq])
  | .alternation branches => exact subset_extendAllBranches hfollow branches heq
  | .repetition body least most? =>
      exact (uniform_extendAll hfollow body).allRepeated least most? first second heq
  | .optional body => exact (uniform_extendAll hfollow body).allRepeated 0 (some 1) first second heq
  | .tagged body tags =>
      exact uniform_extendAll hfollow body _ _ (by simp [Partial.place, hconsumed, htags])

theorem subset_extendAllItems {query : Query}
    {follow : Reference → Partial W → List (Partial W)}
    (hfollow : ∀ link, Uniform (follow link)) (items : List (Expansion P))
    {partials others : List (Partial W)}
    (hsubset : partials.map Partial.place ⊆ others.map Partial.place) :
    (extendAllItems query follow items partials).map Partial.place ⊆
      (extendAllItems query follow items others).map Partial.place := by
  match items with
  | [] => exact hsubset
  | item :: items =>
      exact subset_extendAllItems hfollow items ((uniform_extendAll hfollow item).flatMap hsubset)

theorem subset_extendAllBranches {query : Query}
    {follow : Reference → Partial W → List (Partial W)}
    (hfollow : ∀ link, Uniform (follow link)) (branches : List (Branch P (Expansion P)))
    {first second : Partial W} (heq : first.place = second.place) :
    (extendAllBranches query follow branches first).map Partial.place ⊆
      (extendAllBranches query follow branches second).map Partial.place := by
  match branches with
  | [] => exact List.Subset.refl _
  | ⟨weight?, probability, body⟩ :: branches =>
      rw [extendAllBranches, extendAllBranches, List.map_append, List.map_append]
      refine List.append_subset.mpr ⟨List.subset_append_of_subset_left _ ?_,
        List.subset_append_of_subset_right _ (subset_extendAllBranches hfollow branches heq)⟩
      split
      · exact uniform_extendAll hfollow body _ _ heq
      · exact List.Subset.refl _

end

end Expansion

namespace Scope

variable [BranchWeight P] [LogWeight W] [Logarithm P W]

/-- Without room no match is carried on. -/
theorem followAll_zero (scope : Scope P) (query : Query) (active : List (Target × Nat))
    (link : Reference) (found : Partial W) : scope.followAll query 0 active link found = [] := by
  obtain ⟨name, _ | target⟩ := link
  · rfl
  · delta followAll
    by_cases hactive : (target, found.consumed) ∈ active
    · exact if_pos hactive
    · refine (if_neg hactive).trans ?_
      cases scope.follow? target <;> rfl

/-- A bound reference carries a match on as its rule does, unless that is being matched there. -/
theorem followAll_succ (scope : Scope P) (query : Query) (room : Nat)
    (active : List (Target × Nat)) (name : String) (target : Target) (found : Partial W) :
    scope.followAll query (room + 1) active ⟨name, some target⟩ found =
      if (target, found.consumed) ∈ active then []
      else (scope.follow? target).elim [] fun rule =>
        rule.body.extendAll query
          (scope.followAll query room ((target, found.consumed) :: active)) found := by
  delta followAll
  by_cases hactive : (target, found.consumed) ∈ active
  · exact (if_pos hactive).trans (if_pos hactive).symm
  · refine (if_neg hactive).trans (Eq.trans ?_ (if_neg hactive).symm)
    cases scope.follow? target <;> rfl

/-- References lead matches that agree to matches that agree. -/
theorem uniform_followAll (scope : Scope P) (query : Query) (room : Nat)
    (active : List (Target × Nat)) (link : Reference) :
    Uniform (scope.followAll (W := W) query room active link) := by
  induction room generalizing active link with
  | zero =>
      intro first second heq
      rw [followAll_zero, followAll_zero]
      exact List.Subset.refl _
  | succ room ih =>
      intro first second heq
      have hconsumed : first.consumed = second.consumed := congrArg Prod.fst heq
      obtain ⟨name, _ | target⟩ := link
      · exact List.Subset.refl _
      · rw [followAll_succ, followAll_succ, hconsumed]
        split
        · exact List.Subset.refl _
        · cases scope.follow? target with
          | none => exact List.Subset.refl _
          | some rule =>
              exact rule.body.uniform_extendAll
                (fun link => ih ((target, second.consumed) :: active) link) first second heq

end Scope

/-! ## Both searches find the same first matches -/

namespace Partial

theorem firsts_append_congr {partials others more others' : List (Partial W)}
    (hpartials : firsts partials = firsts others) (hmore : firsts more = firsts others') :
    firsts (partials ++ more) = firsts (others ++ others') :=
  firstsBy_append_congr agrees_iff_place_eq hpartials hmore

theorem firsts_firsts (partials : List (Partial W)) :
    firsts (firsts partials) = firsts partials := by
  have hstep : Uniform fun found : Partial W => [found] := by
    intro first second heq
    simp [heq]
  have hthin := firstsBy_flatMap_firstsBy agrees_iff_place_eq agrees_iff_place_eq hstep partials
  rwa [List.flatMap_singleton', List.flatMap_singleton'] at hthin

/-- Matches with the same first ones are carried on to matches with the same first ones. -/
theorem firsts_flatMap_congr {step step' : Partial W → List (Partial W)} (huniform : Uniform step')
    (hstep : ∀ found, firsts (step found) = firsts (step' found))
    {current current' : List (Partial W)} (hcurrent : firsts current = firsts current') :
    firsts (current.flatMap step) = firsts (current'.flatMap step') := by
  calc
    firsts (current.flatMap step) = firsts (current.flatMap step') :=
      firstsBy_flatMap_congr agrees_iff_place_eq hstep current
    _ = firsts ((firsts current).flatMap step') :=
      (firstsBy_flatMap_firstsBy agrees_iff_place_eq agrees_iff_place_eq huniform current).symm
    _ = firsts ((firsts current').flatMap step') := by rw [hcurrent]
    _ = firsts (current'.flatMap step') :=
      firstsBy_flatMap_firstsBy agrees_iff_place_eq agrees_iff_place_eq huniform current'

theorem firsts_filter_congr (test : Nat → Bool) {partials others : List (Partial W)}
    (heq : firsts partials = firsts others) :
    firsts (partials.filter fun found => test found.consumed) =
      firsts (others.filter fun found => test found.consumed) := by
  have hmap := firstsBy_map_filter_congr agrees_iff_place_eq agrees_iff_place_eq
    (fun found : Partial W => test found.consumed) id
    (fun _ _ hplace => congrArg test (congrArg Prod.fst hplace)) (fun _ _ hplace => hplace) heq
  rwa [List.map_id, List.map_id] at hmap

theorem isEmpty_eq_of_firsts_eq {partials others : List (Partial W)}
    (heq : firsts partials = firsts others) : partials.isEmpty = others.isEmpty := by
  have hempty : ∀ {values values' : List (Partial W)}, firsts values = firsts values' →
      values.isEmpty = true → values'.isEmpty = true := by
    intro values values' heq hnil
    rw [List.isEmpty_iff.mp hnil] at heq
    refine List.isEmpty_iff.mpr (List.eq_nil_iff_forall_not_mem.mpr fun found hfound => ?_)
    obtain ⟨first, hfirst, -⟩ := exists_firsts_of_mem hfound
    rw [← heq] at hfirst
    cases hfirst
  exact Bool.eq_iff_iff.mpr ⟨hempty heq, hempty heq.symm⟩

/-- Iterations have the same first matches, thinned out or not. -/
theorem firsts_iterations {step step' : Partial W → List (Partial W)} (huniform : Uniform step')
    (hstep : ∀ found, firsts (step found) = firsts (step' found)) (least : Nat)
    (most? : Option Nat) (allowance : Nat) {count : Nat} {current current' : List (Partial W)}
    (hcurrent : firsts current = firsts current') :
    firsts (iterations step least most? allowance count current) =
      firsts (allIterations step' least most? allowance count current') := by
  have hhere : firsts (if least ≤ count then current else []) =
      firsts (if least ≤ count then current' else []) := by
    split
    · exact hcurrent
    · rfl
  induction allowance generalizing count current current' with
  | zero =>
      rw [iterations, allIterations]
      exact hhere
  | succ allowance ih =>
      rw [iterations, allIterations]
      split
      · exact hhere
      · -- One more iteration is thinned out by one of the searches only.
        have hnext := firsts_flatMap_congr
          (huniform.filter fun start stop => count < least || start < stop)
          (fun found => firsts_filter_congr
            (fun stop => count < least || found.consumed < stop) (hstep found)) hcurrent
        have hthin := (firsts_firsts _).trans hnext
        dsimp only
        rw [isEmpty_eq_of_firsts_eq hthin]
        split
        · exact hhere
        · refine firsts_append_congr (ih hthin ?_) hhere
          split
          · exact hthin
          · rfl

theorem firsts_repeated {query : Query} {step step' : Partial W → List (Partial W)}
    (huniform : Uniform step') (hstep : ∀ found, firsts (step found) = firsts (step' found))
    (least : Nat) (most? : Option Nat) (found : Partial W) :
    firsts (repeated query step least most? found) =
      firsts (allRepeated query step' least most? found) := by
  rw [repeated, firsts_firsts]
  exact firsts_iterations huniform hstep least most? _ rfl

end Partial

namespace Expansion

variable [BranchWeight P] [LogWeight W] [Logarithm P W]

mutual

/-- If references have the same first matches in both searches, so do all expansions. -/
theorem firsts_extend {query : Query} {follow follow' : Reference → Partial W → List (Partial W)}
    (huniform : ∀ link, Uniform (follow' link))
    (hfollow : ∀ link found, Partial.firsts (follow link found) =
      Partial.firsts (follow' link found)) (expansion : Expansion P) (found : Partial W) :
    Partial.firsts (expansion.extend query follow found) =
      Partial.firsts (expansion.extendAll query follow' found) := by
  match expansion with
  | .literal text => rw [extend, extendAll]
  | .reference link => exact hfollow link found
  | .sequence items => exact firsts_extendItems huniform hfollow items rfl
  | .alternation branches =>
      rw [extend, extendAll, Partial.firsts_firsts]
      exact firsts_extendBranches huniform hfollow branches found
  | .repetition body least most? =>
      exact Partial.firsts_repeated (uniform_extendAll huniform body)
        (firsts_extend huniform hfollow body) least most? found
  | .optional body =>
      exact Partial.firsts_repeated (uniform_extendAll huniform body)
        (firsts_extend huniform hfollow body) 0 (some 1) found
  | .tagged body tags => exact firsts_extend huniform hfollow body _

theorem firsts_extendItems {query : Query}
    {follow follow' : Reference → Partial W → List (Partial W)}
    (huniform : ∀ link, Uniform (follow' link))
    (hfollow : ∀ link found, Partial.firsts (follow link found) =
      Partial.firsts (follow' link found)) (items : List (Expansion P))
    {partials partials' : List (Partial W)}
    (hpartials : Partial.firsts partials = Partial.firsts partials') :
    Partial.firsts (extendItems query follow items partials) =
      Partial.firsts (extendAllItems query follow' items partials') := by
  match items with
  | [] => exact hpartials
  | item :: items =>
      rw [extendItems, extendAllItems]
      refine firsts_extendItems huniform hfollow items ?_
      rw [Partial.firsts_firsts]
      exact Partial.firsts_flatMap_congr (uniform_extendAll huniform item)
        (firsts_extend huniform hfollow item) hpartials

theorem firsts_extendBranches {query : Query}
    {follow follow' : Reference → Partial W → List (Partial W)}
    (huniform : ∀ link, Uniform (follow' link))
    (hfollow : ∀ link found, Partial.firsts (follow link found) =
      Partial.firsts (follow' link found)) (branches : List (Branch P (Expansion P)))
    (found : Partial W) :
    Partial.firsts (extendBranches query follow branches found) =
      Partial.firsts (extendAllBranches query follow' branches found) := by
  match branches with
  | [] => rfl
  | ⟨weight?, probability, body⟩ :: branches =>
      rw [extendBranches, extendAllBranches]
      refine Partial.firsts_append_congr ?_
        (firsts_extendBranches huniform hfollow branches found)
      split
      · exact firsts_extend huniform hfollow body _
      · rfl

end

end Expansion

namespace Scope

variable [BranchWeight P] [LogWeight W] [Logarithm P W]

/-- References have the same first matches in both searches. -/
theorem firsts_followReference (scope : Scope P) (query : Query) (room : Nat)
    (active : List (Target × Nat)) (link : Reference) (found : Partial W) :
    Partial.firsts (scope.followReference query room active link found) =
      Partial.firsts (scope.followAll query room active link found) := by
  induction room generalizing active link found with
  | zero =>
      rw [followAll_zero]
      unfold followReference
      cases link.target? with
      | none => rfl
      | some target =>
          dsimp only
          cases scope.follow? target <;> rw [ite_self]
  | succ room ih =>
      obtain ⟨name, _ | target⟩ := link
      · rfl
      · rw [followAll_succ]
        unfold followReference
        dsimp only
        split
        · rfl
        · cases scope.follow? target with
          | none => rfl
          | some rule =>
              exact rule.body.firsts_extend (uniform_followAll scope query room _)
                (ih ((target, found.consumed) :: active)) found

omit [LogWeight W] in
theorem firsts_complete (count : Nat) (assignments : List Assignment)
    {partials others : List (Partial W)}
    (heq : Partial.firsts partials = Partial.firsts others) :
    Derivation.firsts (complete count assignments partials) =
      Derivation.firsts (complete count assignments others) := by
  have hsame : ∀ first second : Derivation W,
      (second.span == first.span && decide (second.tags = first.tags)) = true ↔
        (first.span, first.tags) = (second.span, second.tags) := by
    intro first second
    rw [Bool.and_eq_true, beq_iff_eq, decide_eq_true_eq]
    constructor
    · rintro ⟨hspan, htags⟩
      rw [hspan, htags]
    · intro heq
      exact ⟨(congrArg Prod.fst heq).symm, (congrArg Prod.snd heq).symm⟩
  refine firstsBy_map_filter_congr hsame Partial.agrees_iff_place_eq _ _ ?_ ?_ heq
  · intro first second hplace
    rw [show first.consumed = second.consumed from congrArg Prod.fst hplace]
  · intro first second hplace
    rw [show first.tags = second.tags from congrArg Prod.snd hplace]

/--
Thinning out on the way is not seen from outside: a deduction lists what is
left when all ways are gone through and all but the first derivation with the
same tags are left out at the end.
-/
theorem deduce_eq_deduceAll (scope : Scope P) (rule : String) (tokens : List String)
    (assignments : List Assignment) (policy : MatchPolicy) :
    scope.deduce (W := W) rule tokens assignments policy =
      scope.deduceAll rule tokens assignments policy := by
  unfold deduce deduceAll
  cases scope.grammar.public rule with
  | error refusal => rfl
  | ok found =>
      obtain ⟨target, top⟩ := found
      simp only [bind, Except.bind]
      cases scope.unusableBelow? target with
      | some reason => rfl
      | none =>
          dsimp only
          rw [firsts_complete tokens.length assignments
            (top.body.firsts_extend (scope.uniform_followAll _ _ _)
              (scope.firsts_followReference _ _ _) .start)]

end Scope

end SpeechGrammar
