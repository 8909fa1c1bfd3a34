import SpeechGrammar.Proofs.Unfolding.Exactness
import SpeechGrammar.Proofs.Unfolding.Faultless
import SpeechGrammar.Proofs.Unfolding.TailRecursion

/-!
# Which grammars are over-approximated

Whether a return is exact depends on the rules that are open when it is met,
and each cycle of references is cut at whichever of its rules is open already.
That some return is inexact does not depend on it: a rule with a reference that
something may follow, and that leads back to the rule, is all it takes.  For
the rule is open then, and not at its end, until it is led back to.  Without
such a rule no open rule is ever led back to but at its end.
-/

namespace SpeechGrammar

variable {P : Type} [BranchWeight P]

open Expansion (Reaches)

namespace Expansion

/--
An expansion can come to a reference and go on behind it: with further items
of a sequence, or with another round of a repetition without end.
-/
inductive GoesOnBehind (link : Reference) : Expansion P → Prop where
  | next {before after : List (Expansion P)} {item : Expansion P} (hafter : after ≠ [])
      (hitem : Reaches (.reference link) item) :
      GoesOnBehind link (.sequence (before ++ item :: after))
  | again {body : Expansion P} (least : Nat) (hbody : Reaches (.reference link) body) :
      GoesOnBehind link (.repetition body least none)
  | sequence {items : List (Expansion P)} {item : Expansion P} (hmem : item ∈ items)
      (hitem : GoesOnBehind link item) : GoesOnBehind link (.sequence items)
  | alternation {branches : List (Branch P (Expansion P))} {branch : Branch P (Expansion P)}
      (hmem : branch ∈ branches) (hpositive : 0 < branch.probability)
      (hbody : GoesOnBehind link branch.body) : GoesOnBehind link (.alternation branches)
  | repetition {body : Expansion P} (least : Nat) {most? : Option Nat} (hmost : most? ≠ some 0)
      (hbody : GoesOnBehind link body) : GoesOnBehind link (.repetition body least most?)
  | optional {body : Expansion P} (hbody : GoesOnBehind link body) :
      GoesOnBehind link (.optional body)
  | tagged {body : Expansion P} (tags : List Tag) (hbody : GoesOnBehind link body) :
      GoesOnBehind link (.tagged body tags)

variable {link : Reference} {expansion : Expansion P} {kind : Target → Prop}

theorem GoesOnBehind.reaches (hgoes : expansion.GoesOnBehind link) :
    Reaches (.reference link) expansion := by
  induction hgoes with
  | next _ hitem => exact .sequence (by simp) hitem
  | again least hbody => exact .repetition least (by simp) hbody
  | sequence hmem _ ih => exact .sequence hmem ih
  | alternation hmem hpositive _ ih => exact .alternation hmem hpositive ih
  | repetition least hmost _ ih => exact .repetition least hmost ih
  | optional _ ih => exact .optional ih
  | tagged tags _ ih => exact .tagged tags ih

theorem RecursesLastItems.avoids {before after : List (Expansion P)} {item : Expansion P}
    (hlast : RecursesLastItems kind (before ++ item :: after)) (hafter : after ≠ []) :
    item.Avoids kind := by
  induction before with
  | nil =>
      have hmore : ¬ after.isEmpty = true := by simpa using hafter
      have hitem := hlast.1
      rwa [if_neg hmore] at hitem
  | cons first before ih => exact ih hlast.2

theorem RecursesLastItems.recursesLast {items : List (Expansion P)}
    (hlast : RecursesLastItems kind items) {item : Expansion P} (hmem : item ∈ items) :
    item.RecursesLast kind := by
  induction items with
  | nil => cases hmem
  | cons first items ih =>
      obtain ⟨hfirst, hitems⟩ := hlast
      rcases List.mem_cons.mp hmem with rfl | hmem
      · split at hfirst
        · exact hfirst
        · exact hfirst.recursesLast
      · exact ih hitems hmem

theorem GoesOnBehind.not_kind (hgoes : expansion.GoesOnBehind link)
    (hlast : expansion.RecursesLast kind) {target : Target} (htarget : link.target? = some target) :
    ¬ kind target := by
  induction hgoes with
  | next hafter hitem =>
      rw [RecursesLast] at hlast
      exact hlast.avoids hafter link target hitem htarget
  | again least hbody =>
      rw [RecursesLast] at hlast
      rcases hlast with hnone | ⟨hone, -⟩ | havoids
      · cases hnone
      · cases hone
      · exact havoids link target hbody htarget
  | sequence hmem _ ih =>
      rw [RecursesLast] at hlast
      exact ih (hlast.recursesLast hmem)
  | alternation hmem hpositive _ ih =>
      rw [RecursesLast, recursesLastBranches_iff] at hlast
      exact ih (hlast _ hmem hpositive)
  | repetition least hmost hbody ih =>
      rw [RecursesLast] at hlast
      rcases hlast with hnone | ⟨-, hbodyLast⟩ | havoids
      · exact absurd hnone hmost
      · exact ih hbodyLast
      · exact havoids link target hbody.reaches htarget
  | optional _ ih => exact ih hlast
  | tagged _ _ ih => exact ih hlast

/-! ## Unfolding with a floor -/

/-- An expansion itself, if it is a repetition, has no greatest number of iterations. -/
def Endless : Expansion P → Prop
  | .repetition _ _ most? => most? = none
  | _ => True

omit [BranchWeight P] in
theorem Endless.mapReferences (change : Reference → Reference) (expansion : Expansion P)
    (hendless : expansion.Endless) : (expansion.mapReferences change).Endless := by
  cases expansion <;> exact hendless

omit [BranchWeight P] in
theorem Endless.withProbabilities (share : List (Option P) → Option P → P)
    (expansion : Expansion P) (hendless : expansion.Endless) :
    (expansion.withProbabilities share).Endless := by
  cases expansion <;> exact hendless

theorem endless_of_isWritten (hwritten : Source.IsWritten expansion) : expansion.Endless := by
  cases expansion with
  | repetition body least most? => exact hwritten.2
  | _ => trivial

/--
What passes up holds of an unfolding if it holds of the references that can be
come to, unfolded at the end of the expansion, and of those that it may go on
behind, unfolded away from the ends of all open rules.
-/
theorem holds_unfold_of_places {holds : Unfolding P → Prop} (hpasses : Unfolding.PassesUp holds)
    {follow : List OpenRule → Nat → Reference → Unfolding P} {opened : List OpenRule}
    (hendless : expansion.Everywhere Endless) (floor : Nat)
    (hend : ∀ link, Reaches (.reference link) expansion → holds (follow opened floor link))
    (haside : ∀ link, expansion.GoesOnBehind link → holds (follow opened opened.length link)) :
    holds (expansion.unfold follow opened floor) := by
  induction hendless generalizing floor with
  | literal => exact hpasses.word _
  | reference => exact hend _ .here
  | @sequence items _ _ ih =>
      rw [unfold]
      refine hpasses.sequence ?_
      -- The items before those that are still to be unfolded keep their place in the sequence.
      suffices hsuffix : ∀ before after, before ++ after = items →
          ∀ part ∈ unfoldItems follow opened floor after, holds part from hsuffix [] items rfl
      intro before after
      induction after generalizing before with
      | nil => exact fun _ part hpart => nomatch hpart
      | cons item after ihAfter =>
          intro heq part hpart
          have hmem : item ∈ items := heq ▸ List.mem_append_right _ (List.mem_cons_self ..)
          rw [unfoldItems] at hpart
          rcases List.mem_cons.mp hpart with rfl | hpart
          · have hinside : ∀ link, item.GoesOnBehind link →
                holds (follow opened opened.length link) :=
              fun link hgoes => haside link (.sequence hmem hgoes)
            split
            · exact ih item hmem floor (fun link hlink => hend link (.sequence hmem hlink)) hinside
            · rename_i hmore
              have hafter : after ≠ [] := by simpa using hmore
              refine ih item hmem opened.length (fun link hlink => haside link ?_) hinside
              exact heq ▸ .next hafter hlink
          · exact ihAfter (before ++ [item]) (by simpa using heq) part hpart
  | alternation _ _ ih =>
      rw [unfold]
      refine hpasses.choice fun part hpart => ?_
      obtain ⟨branch, hbranch, hpositive, rfl⟩ := mem_unfoldBranches_iff.mp hpart
      exact ih branch hbranch floor
        (fun link hlink => hend link (.alternation hbranch hpositive hlink))
        (fun link hgoes => haside link (.alternation hbranch hpositive hgoes))
  | @repetition body least most? hnone _ ih =>
      obtain rfl : most? = none := hnone
      rw [unfold]
      exact hpasses.loop (ih opened.length (fun link hlink => haside link (.again least hlink))
        (fun link hgoes => haside link (.repetition least (by simp) hgoes)))
  | optional _ _ ih =>
      rw [unfold]
      refine hpasses.copies fun copy hcopy => ?_
      obtain rfl := List.mem_singleton.mp hcopy
      exact ih floor (fun link hlink => hend link (.optional hlink))
        (fun link hgoes => haside link (.optional hgoes))
  | tagged _ _ ih =>
      rw [unfold]
      exact hpasses.tagged (ih floor (fun link hlink => hend link (.tagged _ hlink))
        (fun link hgoes => haside link (.tagged _ hgoes)))

end Expansion

namespace Scope

variable {W : Type} {scope : Scope P} {root : Target}

/-- All repetitions that are read from a text are without end. -/
theorem Prepared.endless (hscope : scope.Prepared) :
    scope.Bodies (Expansion.Everywhere Expansion.Endless) := by
  refine hscope.bodies (fun body hwritten => ?_) (fun change body hendless => ?_)
    fun body hendless => ?_
  · exact hwritten.imp fun _ => Expansion.endless_of_isWritten
  · exact hendless.partwise (Expansion.isPartwise_mapReferences change)
      (Expansion.Endless.mapReferences change)
  · exact hendless.partwise (Expansion.isPartwise_withProbabilities shareOf)
      (Expansion.Endless.withProbabilities shareOf)

/-- A rule goes on behind a reference that leads back to the rule. -/
def RecursesMidway (scope : Scope P) (target : Target) : Prop :=
  ∃ rule link next, scope.follow? target = some rule ∧ rule.body.GoesOnBehind link ∧
    link.target? = some next ∧ scope.Leads next target

/-- A rule that is unfolded exactly goes on behind no reference that leads back to it. -/
theorem Opens.not_recursesMidway {target : Target} {opened : List OpenRule} {floor : Nat}
    (hopens : scope.Opens target opened floor) : ¬ scope.RecursesMidway target := by
  rintro ⟨rule, link, next, hrule, hgoes, hnext, hleads⟩
  exact hgoes.not_kind (hopens.recursesLast hrule) hnext hleads

/--
Open rules that lead to a rule, of which those below the floor, which are not at
their ends, are not led back to.
-/
structure Secludes (scope : Scope P) (opened : List OpenRule) (floor : Nat) (target : Target) :
    Prop where
  floor_le : floor ≤ opened.length
  leads : ∀ rule ∈ opened, scope.Leads rule.target target
  not_leads : ∀ depth rule, opened[depth]? = some rule → depth < floor →
    ¬ scope.Leads target rule.target

theorem secludes_nil (target : Target) : scope.Secludes [] 0 target where
  floor_le := Nat.le_refl 0
  leads := fun _ hrule => nomatch hrule
  not_leads := fun _ _ _ hless => absurd hless (Nat.not_lt_zero _)

theorem Secludes.enter {opened : List OpenRule} {floor : Nat} {target next : Target}
    (hsecludes : scope.Secludes opened floor target) (name : String)
    (hcalls : scope.Calls target next) :
    scope.Secludes (opened ++ [⟨target, name⟩]) floor next where
  floor_le := by
    rw [List.length_append]
    exact hsecludes.floor_le.trans (Nat.le_add_right ..)
  leads := by
    intro rule hrule
    rcases List.mem_append.mp hrule with hrule | hrule
    · exact (hsecludes.leads rule hrule).tail hcalls
    · obtain rfl := List.mem_singleton.mp hrule
      exact .single hcalls
  not_leads := by
    intro depth rule hrule hless hleads
    rw [List.getElem?_append_left (hless.trans_le hsecludes.floor_le)] at hrule
    exact hsecludes.not_leads depth rule hrule hless (.head hcalls hleads)

theorem Secludes.aside {opened : List OpenRule} {floor : Nat} {target next : Target}
    (hsecludes : scope.Secludes opened floor target) (name : String)
    (hcalls : scope.Calls target next) (hnot : ¬ scope.Leads next target) :
    scope.Secludes (opened ++ [⟨target, name⟩]) (opened ++ [OpenRule.mk target name]).length
      next where
  floor_le := Nat.le_refl _
  leads := (hsecludes.enter name hcalls).leads
  not_leads := by
    intro depth rule hrule _ hleads
    rcases List.mem_append.mp (List.mem_of_getElem? hrule) with hrule | hrule
    · exact hnot (hleads.trans (hsecludes.leads rule hrule))
    · obtain rfl := List.mem_singleton.mp hrule
      exact hnot hleads

/--
A reference that is unfolded without a fault is unfolded exactly if it does not
lead back to open rules below the floor, and no rule that it leads to recurses
midway.
-/
theorem exact_unfoldReference_of_secludes
    (hendless : scope.Bodies (Expansion.Everywhere Expansion.Endless))
    (hnone : ∀ target, scope.Leads root target → ¬ scope.RecursesMidway target) (room : Nat)
    (opened : List OpenRule) (floor : Nat) {link : Reference}
    (hsecludes : ∀ target, link.target? = some target →
      scope.Leads root target ∧ scope.Secludes opened floor target)
    (hfaultless : (scope.unfoldReference room opened floor link).Faultless) :
    (scope.unfoldReference room opened floor link).Exact := by
  induction room using Nat.strongRecOn generalizing opened floor link with
  | ind room ih =>
      rcases unfoldReference_cases scope room opened floor link with ⟨reason, heq, -⟩ |
        ⟨target, htarget, ⟨depth, rule, hrule, rfl, -, heq⟩ | ⟨left, rule, rfl, hrule, -, heq⟩⟩
      · rw [heq] at hfaultless
        exact (Unfolding.not_faultless_fault reason hfaultless).elim
      · rw [heq, Unfolding.exact_recursion_iff, decide_eq_true_iff]
        by_contra hless
        exact (hsecludes _ htarget).2.not_leads depth rule hrule (Nat.lt_of_not_le hless) .refl
      · obtain ⟨hleads, hinside⟩ := hsecludes target htarget
        rw [heq] at hfaultless ⊢
        have hbody := Unfolding.faultless_rule_iff.mp hfaultless
        refine Unfolding.exact_rule_iff.mpr ?_
        refine Expansion.holds_unfold_of_places Unfolding.passesUp_exact
          (hendless.of_follow? hrule) floor (fun inner hreaches hinner => ?_)
          (fun inner hgoes hinner => ?_) hbody
        · refine ih left (Nat.lt_succ_self left) _ floor (fun next hnext => ?_) hinner
          have hcalls : scope.Calls target next := ⟨rule, inner, hrule, hreaches, hnext⟩
          exact ⟨hleads.tail hcalls, hinside.enter rule.name hcalls⟩
        · refine ih left (Nat.lt_succ_self left) _ _ (fun next hnext => ?_) hinner
          have hcalls : scope.Calls target next := ⟨rule, inner, hrule, hgoes.reaches, hnext⟩
          refine ⟨hleads.tail hcalls, hinside.aside rule.name hcalls fun hback => ?_⟩
          exact hnone target hleads ⟨rule, inner, next, hrule, hgoes, hnext, hback⟩

/-- A public rule is unfolded exactly if no rule that it leads to recurses midway. -/
theorem exact_publicUnfolding_iff (hscope : scope.Prepared) {top : Rule P}
    (hfaultless : (scope.publicUnfolding root top).Faultless) :
    (scope.publicUnfolding root top).Exact ↔
      ∀ target, scope.Leads root target → ¬ scope.RecursesMidway target := by
  constructor
  · intro hexact target hleads
    obtain ⟨before, hopens, -⟩ := Entered.outermost.exists_opens_of_reference hexact rfl
    obtain ⟨inside, lower, htarget⟩ := hopens.of_leads hleads
    exact htarget.not_recursesMidway
  · intro hnone
    refine exact_unfoldReference_of_secludes hscope.endless hnone scope.ruleCount [] 0
      (fun target htarget => ?_) hfaultless
    obtain rfl := Option.some.inj htarget
    exact ⟨.refl, secludes_nil root⟩

variable [LogWeight W] [Logarithm P W]

/--
Where an automaton is built of a public rule, over-approximation is reported
exactly if some rule that the public one leads to recurses midway: it goes on
behind a reference that leads back to it.
-/
theorem overApproximated_ne_nil_iff (hscope : scope.Prepared) {name : String} {languageWeight : P}
    {automaton : Automaton P W} (hbuild : scope.buildRaw name languageWeight = .ok automaton) :
    scope.overApproximated name languageWeight ≠ [] ↔
      ∃ target top, scope.grammar.public name = .ok (target, top) ∧
        ∃ other, scope.Leads target other ∧ scope.RecursesMidway other := by
  obtain ⟨target, top, hpublic, hunfold, hfaultless, -⟩ :=
    exists_faultless_of_buildRaw_eq_ok hbuild
  have hreport : scope.overApproximated name languageWeight = [] ↔
      (scope.publicUnfolding target top).Exact := by
    rw [overApproximated, hunfold, Unfolding.exact_iff]
    exact (and_iff_left hfaultless).symm
  rw [ne_eq, hreport, exact_publicUnfolding_iff hscope hfaultless]
  constructor
  · intro hsome
    simp only [not_forall, not_not] at hsome
    obtain ⟨other, hleads, hmidway⟩ := hsome
    exact ⟨target, top, hpublic, other, hleads, hmidway⟩
  · rintro ⟨found, rule, hfound, other, hleads, hmidway⟩ hnone
    obtain ⟨rfl, -⟩ := Prod.mk.inj (Except.ok.inj (hpublic.symm.trans hfound))
    exact hnone other hleads hmidway

omit [BranchWeight P] [LogWeight W] [Logarithm P W]

def turningText : String :=
  "public <path> = stop | /3/ <turn>; <turn> = (left | right) <path>;" ++
    "public <maze> = leaf | <enter> [leave]; <enter> = enter <maze>;"

def turning : Scope ℚ := (parseLenient ⟨0⟩ turningText none).1

/--
`<maze>` leads to a rule that recurses midway, so it is reported; `<path>` leads to none and is not.
-/
theorem turning_reported :
    (∃ target top, turning.grammar.public "maze" = .ok (target, top) ∧
        ∃ other, turning.Leads target other ∧ turning.RecursesMidway other) ∧
      ¬ ∃ target top, turning.grammar.public "path" = .ok (target, top) ∧
        ∃ other, turning.Leads target other ∧ turning.RecursesMidway other := by
  have hscope : turning.Prepared := .read ⟨0⟩ turningText (by simp)
  have hknown : ((turning.buildRaw "maze" 1 :
        Except _ (Automaton ℚ (WithBot ℚ))).map fun _ => ()).toOption = some () ∧
      ((turning.buildRaw "path" 1 :
        Except _ (Automaton ℚ (WithBot ℚ))).map fun _ => ()).toOption = some () ∧
      turning.overApproximated "maze" 1 ≠ [] ∧ turning.overApproximated "path" 1 = [] := by
    decide +kernel
  obtain ⟨hmazeBuilt, hpathBuilt, hmazeReport, hpathReport⟩ := hknown
  obtain ⟨maze, hmaze, -⟩ := exists_of_toOption_map_eq_some hmazeBuilt
  obtain ⟨path, hpath, -⟩ := exists_of_toOption_map_eq_some hpathBuilt
  constructor
  · exact (overApproximated_ne_nil_iff hscope hmaze).mp hmazeReport
  · intro hmidway
    exact (overApproximated_ne_nil_iff hscope hpath).mpr hmidway hpathReport

end Scope

end SpeechGrammar
