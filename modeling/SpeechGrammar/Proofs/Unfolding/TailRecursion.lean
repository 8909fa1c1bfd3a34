import SpeechGrammar.Proofs.Expansion.Everywhere
import SpeechGrammar.Proofs.Unfolding.Descent
import SpeechGrammar.Proofs.Unfolding.Numbering

/-!
# Exact unfoldings recurse last

If the unfolding of a rule is exact, rules only refer back to themselves where
nothing can follow.  A reference in another place would have to be unfolded
with no open rule at its end.  Wherever it leads to from there, each rule on
the way is either open since, or opened anew; and so none of them, the rule
itself included, can have been open before.
-/

namespace SpeechGrammar

variable {P : Type} [BranchWeight P]

open Expansion (Reaches)

namespace Expansion

def Avoids (kind : Target → Prop) (expansion : Expansion P) : Prop :=
  ∀ link target, Reaches (.reference link) expansion → link.target? = some target → ¬ kind target

mutual

/-- References to rules of some kind stand only where nothing of the expansion can follow. -/
def RecursesLast (kind : Target → Prop) : Expansion P → Prop
  | .literal _ => True
  | .reference _ => True
  | .sequence items => RecursesLastItems kind items
  | .alternation branches => RecursesLastBranches kind branches
  | .repetition body _ most? =>
      most? = some 0 ∨ most? = some 1 ∧ body.RecursesLast kind ∨ body.Avoids kind
  | .optional body => body.RecursesLast kind
  | .tagged body _ => body.RecursesLast kind

def RecursesLastItems (kind : Target → Prop) : List (Expansion P) → Prop
  | [] => True
  | item :: items =>
      (if items.isEmpty then item.RecursesLast kind else item.Avoids kind) ∧
        RecursesLastItems kind items

def RecursesLastBranches (kind : Target → Prop) : List (Branch P (Expansion P)) → Prop
  | [] => True
  | ⟨_, probability, body⟩ :: branches =>
      (0 < probability → body.RecursesLast kind) ∧ RecursesLastBranches kind branches

end

variable {kind narrow : Target → Prop} {expansion : Expansion P}

theorem Avoids.anti (havoids : expansion.Avoids kind)
    (hnarrow : ∀ target, narrow target → kind target) : expansion.Avoids narrow :=
  fun link target hreaches htarget hkind =>
    havoids link target hreaches htarget (hnarrow target hkind)

theorem recursesLastBranches_iff {branches : List (Branch P (Expansion P))} :
    RecursesLastBranches kind branches ↔
      ∀ branch ∈ branches, 0 < branch.probability → branch.body.RecursesLast kind := by
  induction branches with
  | nil => simp [RecursesLastBranches]
  | cons branch branches ih => rw [RecursesLastBranches, ih, List.forall_mem_cons]

/-- What does not refer to rules of a kind recurses last to them. -/
theorem Avoids.recursesLast (havoids : expansion.Avoids kind) : expansion.RecursesLast kind := by
  induction expansion using Expansion.structural with
  | literal text => trivial
  | reference link => trivial
  | sequence items ih =>
      have hparts : ∀ item ∈ items, item.Avoids kind := fun item hitem link target hreaches =>
        havoids link target (.sequence hitem hreaches)
      rw [RecursesLast]
      clear havoids
      induction items with
      | nil => trivial
      | cons item items ihItems =>
          obtain ⟨hitem, hitems⟩ := List.forall_mem_cons.mp hparts
          obtain ⟨ihItem, ihRest⟩ := List.forall_mem_cons.mp ih
          refine ⟨?_, ihItems ihRest hitems⟩
          split
          · exact ihItem hitem
          · exact hitem
  | alternation branches ih =>
      rw [RecursesLast, recursesLastBranches_iff]
      exact fun branch hbranch hpositive => ih branch hbranch fun link target hreaches =>
        havoids link target (.alternation hbranch hpositive hreaches)
  | repetition body least most? ih =>
      rw [RecursesLast]
      by_cases hnone : most? = some 0
      · exact .inl hnone
      · exact .inr (.inr fun link target hreaches =>
          havoids link target (.repetition least hnone hreaches))
  | optional body ih =>
      exact ih fun link target hreaches => havoids link target (.optional hreaches)
  | tagged body tags ih =>
      exact ih fun link target hreaches => havoids link target (.tagged tags hreaches)

theorem recursesLastItems_replicate {body : Expansion P} {least : Nat} {most? : Option Nat}
    (hlast : (Expansion.repetition body least most?).RecursesLast kind) {count : Nat}
    (hcount : ∀ most ∈ most?, count ≤ most) :
    RecursesLastItems kind (List.replicate count body) := by
  rcases hlast with rfl | ⟨rfl, hbody⟩ | havoids
  · obtain rfl : count = 0 := Nat.le_zero.mp (hcount 0 rfl)
    trivial
  · match count, hcount 1 rfl with
    | 0, _ => trivial
    | 1, _ => exact ⟨hbody, trivial⟩
  · clear hcount
    induction count with
    | zero => trivial
    | succ count ih =>
        rw [List.replicate_succ]
        refine ⟨?_, ih⟩
        split
        · exact havoids.recursesLast
        · exact havoids

theorem RecursesLast.anti (hlast : expansion.RecursesLast kind)
    (hnarrow : ∀ target, narrow target → kind target) : expansion.RecursesLast narrow := by
  induction expansion using Expansion.structural with
  | literal text => trivial
  | reference link => trivial
  | sequence items ih =>
      rw [RecursesLast] at hlast ⊢
      induction items with
      | nil => trivial
      | cons item items ihItems =>
          obtain ⟨hitem, hitems⟩ := hlast
          obtain ⟨ihItem, ihRest⟩ := List.forall_mem_cons.mp ih
          refine ⟨?_, ihItems ihRest hitems⟩
          split
          · rename_i hend
            rw [if_pos hend] at hitem
            exact ihItem hitem
          · rename_i hmore
            rw [if_neg hmore] at hitem
            exact hitem.anti hnarrow
  | alternation branches ih =>
      rw [RecursesLast, recursesLastBranches_iff] at hlast ⊢
      exact fun branch hbranch hpositive => ih branch hbranch (hlast branch hbranch hpositive)
  | repetition body least most? ih =>
      rw [RecursesLast] at hlast ⊢
      rcases hlast with hnone | ⟨hone, hbody⟩ | havoids
      · exact .inl hnone
      · exact .inr (.inl ⟨hone, ih hbody⟩)
      · exact .inr (.inr (havoids.anti hnarrow))
  | optional body ih => exact ih hlast
  | tagged body tags ih => exact ih hlast

/-! ## Exact references -/

section Exact

variable {follow : List OpenRule → Nat → Reference → Unfolding P} {opened : List OpenRule}
  {floor : Nat}

/-- An exact unfolding recurses last to rules that are not referred to exactly elsewhere. -/
theorem recursesLast_of_exact
    (hkind : ∀ link target, link.target? = some target →
      (follow opened opened.length link).Exact → ¬ kind target)
    (hexact : (expansion.unfold follow opened floor).Exact) : expansion.RecursesLast kind := by
  have havoids : ∀ part : Expansion P, (part.unfold follow opened opened.length).Exact →
      part.Avoids kind := by
    intro part hpart link target hreaches htarget
    obtain ⟨lower, hlower, hfollow⟩ :=
      holds_follow_of_reaches Unfolding.passesDown_exact hreaches hpart
    obtain rfl : lower = opened.length := hlower.elim id id
    exact hkind link target htarget hfollow
  induction expansion using Expansion.structural generalizing floor with
  | literal text => trivial
  | reference link => trivial
  | sequence items ih =>
      rw [unfold, Unfolding.exact_sequence_iff] at hexact
      rw [RecursesLast]
      induction items with
      | nil => trivial
      | cons item items ihItems =>
          rw [unfoldItems] at hexact
          obtain ⟨hitem, hitems⟩ := List.forall_mem_cons.mp hexact
          obtain ⟨ihItem, ihRest⟩ := List.forall_mem_cons.mp ih
          refine ⟨?_, ihItems ihRest hitems⟩
          split
          · rename_i hend
            rw [if_pos hend] at hitem
            exact ihItem hitem
          · rename_i hmore
            rw [if_neg hmore] at hitem
            exact havoids item hitem
  | alternation branches ih =>
      rw [unfold, Unfolding.exact_choice_iff] at hexact
      rw [RecursesLast, recursesLastBranches_iff]
      exact fun branch hbranch hpositive => ih branch hbranch
        (hexact _ (mem_unfoldBranches_iff.mpr ⟨branch, hbranch, hpositive, rfl⟩))
  | repetition body least most? ih =>
      rw [RecursesLast]
      cases most? with
      | none =>
          rw [unfold, Unfolding.exact_loop_iff] at hexact
          exact .inr (.inr (havoids body hexact))
      | some most =>
          rw [unfold, Unfolding.exact_copies_iff] at hexact
          have hle : most ≤ max most least := Nat.le_max_left ..
          match most with
          | 0 => exact .inl rfl
          | 1 => exact .inr (.inl ⟨rfl, ih (Unfolding.passesDown_exact.of_copiesOf hle hexact).1⟩)
          | most + 2 =>
              have hcopies := Unfolding.passesDown_exact.of_copiesOf (by omega) hexact
              exact .inr (.inr (havoids body (hcopies.2 (by omega))))
  | optional body ih =>
      rw [unfold, Unfolding.exact_copies_iff] at hexact
      exact ih (hexact _ (List.mem_singleton_self _))
  | tagged body tags ih =>
      rw [unfold, Unfolding.exact_tagged_iff] at hexact
      exact ih hexact

end Exact

end Expansion

namespace Scope

variable {scope : Scope P} {opened : List OpenRule} {floor : Nat}

/-- Rules that are open in exact unfoldings, of which those from a depth on are at their end. -/
inductive Entered (scope : Scope P) : List OpenRule → Nat → Prop where
  | outermost : Entered scope [] 0
  | enter {opened : List OpenRule} {floor room : Nat} {target : Target} {rule : Rule P}
      (hentered : Entered scope opened floor) (hrule : scope.follow? target = some rule)
      (hexact : (rule.body.unfold (scope.unfoldReference room)
        (opened ++ [⟨target, rule.name⟩]) floor).Exact) :
      Entered scope (opened ++ [⟨target, rule.name⟩]) floor
  /-- Where something follows no open rule is at its end. -/
  | aside {opened : List OpenRule} {floor : Nat} (hentered : Entered scope opened floor) :
      Entered scope opened opened.length

/-- A rule that is unfolded exactly inside rules that are open. -/
def Opens (scope : Scope P) (target : Target) (opened : List OpenRule) (floor : Nat) : Prop :=
  ∃ room rule, scope.follow? target = some rule ∧
    scope.Entered (opened ++ [⟨target, rule.name⟩]) floor ∧
    (rule.body.unfold (scope.unfoldReference room) (opened ++ [⟨target, rule.name⟩]) floor).Exact

theorem Entered.exists_opens (hentered : scope.Entered opened floor) {depth : Nat}
    {inner : OpenRule} (hdepth : floor ≤ depth) (hinner : opened[depth]? = some inner) :
    ∃ before, before.length = depth ∧ before ++ [inner] <+: opened ∧
      scope.Opens inner.target before floor := by
  induction hentered with
  | outermost => cases hinner
  | @enter opened floor room target rule hentered hrule hexact ih =>
      rcases getElem?_concat_eq_some_iff.mp hinner with hinner | ⟨rfl, rfl⟩
      · obtain ⟨before, hlength, hshorter, hopens⟩ := ih hdepth hinner
        exact ⟨before, hlength, hshorter.trans (List.prefix_append ..), hopens⟩
      · exact ⟨opened, rfl, List.prefix_rfl, room, rule, hrule, hentered.enter hrule hexact, hexact⟩
  | aside _ _ =>
      rw [List.getElem?_eq_none hdepth] at hinner
      cases hinner

/-- What is referred to exactly is opened, now or while a rule at its end was unfolded. -/
theorem Entered.exists_opens_of_reference (hentered : scope.Entered opened floor) {room : Nat}
    {link : Reference} (hexact : (scope.unfoldReference room opened floor link).Exact)
    {target : Target} (htarget : link.target? = some target) :
    ∃ before, scope.Opens target before floor ∧
      ∀ place other, opened[place]? = some other →
        floor ≤ place ∨ other.target ≠ target ∧ before[place]? = some other := by
  obtain ⟨other, hother, ⟨depth, inner, hdepth, hinner, rfl, hleast, -⟩ |
    ⟨left, rule, -, hrule, hnew, -, hbody⟩⟩ := exact_unfoldReference_cases hexact
  · obtain rfl := Option.some.inj (htarget.symm.trans hother)
    obtain ⟨before, rfl, hshorter, hopens⟩ := hentered.exists_opens hdepth hinner
    refine ⟨before, hopens, fun place other hplace => ?_⟩
    rcases Nat.lt_or_ge place before.length with hless | hge
    · obtain ⟨more, rfl⟩ := (List.prefix_append before [inner]).trans hshorter
      rw [List.getElem?_append_left hless] at hplace
      refine .inr ⟨fun heq => ?_, hplace⟩
      have hle := hleast place other (by rw [List.getElem?_append_left hless]; exact hplace) heq
      omega
    · exact .inl (hdepth.trans hge)
  · obtain rfl := Option.some.inj (htarget.symm.trans hother)
    refine ⟨opened, ⟨left, rule, hrule, hentered.enter hrule hbody, hbody⟩, ?_⟩
    exact fun place other hplace => .inr ⟨hnew other (List.mem_of_getElem? hplace), hplace⟩

/-- An open rule that a reference leads back to is at its end where the reference is exact. -/
theorem floor_le_of_leads {target back : Target} (hleads : scope.Leads target back)
    {room : Nat} {link : Reference} (htarget : link.target? = some target)
    (hentered : scope.Entered opened floor)
    (hexact : (scope.unfoldReference room opened floor link).Exact) {place : Nat}
    {inner : OpenRule} (hinner : opened[place]? = some inner) (hback : inner.target = back) :
    floor ≤ place := by
  induction hleads using Relation.ReflTransGen.head_induction_on
    generalizing opened floor room link with
  | refl =>
      obtain ⟨before, -, hplaces⟩ := hentered.exists_opens_of_reference hexact htarget
      rcases hplaces place inner hinner with hle | ⟨hdiffer, -⟩
      · exact hle
      · exact absurd hback hdiffer
  | @head target _ hcalls _ ih =>
      obtain ⟨rule, next, hrule, hreaches, hnext⟩ := hcalls
      obtain ⟨before, ⟨left, found, hfound, henteredBody, hbody⟩, hplaces⟩ :=
        hentered.exists_opens_of_reference hexact htarget
      obtain rfl := Option.some.inj (hrule.symm.trans hfound)
      rcases hplaces place inner hinner with hle | ⟨-, hbefore⟩
      · exact hle
      · have hlt := (List.getElem?_eq_some_iff.mp hbefore).1
        have hopen : (before ++ [⟨target, rule.name⟩])[place]? = some inner := by
          rw [List.getElem?_append_left hlt]
          exact hbefore
        obtain ⟨lower, rfl | rfl, hfollow⟩ :=
          Expansion.holds_follow_of_reaches Unfolding.passesDown_exact hreaches hbody
        · exact ih hnext henteredBody hfollow hopen
        · have hle := ih hnext henteredBody.aside hfollow hopen
          rw [List.length_append] at hle
          omega

theorem Opens.recursesLast {target : Target} (hopens : scope.Opens target opened floor)
    {rule : Rule P} (hrule : scope.follow? target = some rule) :
    rule.body.RecursesLast fun other => scope.Leads other target := by
  obtain ⟨room, found, hfound, hentered, hexact⟩ := hopens
  obtain rfl := Option.some.inj (hrule.symm.trans hfound)
  refine Expansion.recursesLast_of_exact (fun link other hother hfollow hleads => ?_) hexact
  have hle := floor_le_of_leads hleads hother hentered.aside hfollow
    List.getElem?_concat_length rfl
  rw [List.length_append, List.length_singleton] at hle
  omega

/-- Whatever a rule that is unfolded exactly leads to is unfolded exactly too. -/
theorem Opens.of_leads {target other : Target} (hopens : scope.Opens target opened floor)
    (hleads : scope.Leads target other) :
    ∃ inside lower, scope.Opens other inside lower := by
  induction hleads with
  | refl => exact ⟨_, _, hopens⟩
  | tail _ hcalls ih =>
      obtain ⟨inside, lower, room, found, hfound, hentered, hexact⟩ := ih
      obtain ⟨rule, link, hrule, hreaches, hlink⟩ := hcalls
      obtain rfl := Option.some.inj (hrule.symm.trans hfound)
      obtain ⟨least, rfl | rfl, hfollow⟩ :=
        Expansion.holds_follow_of_reaches Unfolding.passesDown_exact hreaches hexact
      · obtain ⟨before, hinner, -⟩ := hentered.exists_opens_of_reference hfollow hlink
        exact ⟨before, _, hinner⟩
      · obtain ⟨before, hinner, -⟩ := hentered.aside.exists_opens_of_reference hfollow hlink
        exact ⟨before, _, hinner⟩

end Scope

end SpeechGrammar
