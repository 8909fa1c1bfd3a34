import SpeechGrammar.Automaton.Wiring
import SpeechGrammar.Proofs.ExactProbability
import SpeechGrammar.Proofs.Unfolding.Faultless

/-!
# Unfolding comes to an end

Unfolding is written down here as it goes, without any bound on how deep: a
reference to a rule that is not open opens the rule, inside those that are open
already, and unfolds its body there.  An expansion is unfolded in one way only.
It always is, with what unfolding is computed to be, since no rule is opened
inside itself and rules are finitely many.
-/

namespace SpeechGrammar

variable {P W : Type} [BranchWeight P]

/-- Inside some open rules an expansion that ends near them from some depth on is unfolded. -/
inductive Scope.Unfolds (scope : Scope P) :
    List OpenRule → Nat → Expansion P → Unfolding P → Prop where
  | literal {opened : List OpenRule} {floor : Nat} (text : String) :
      Unfolds scope opened floor (.literal text) (.word text)
  | unbound {opened : List OpenRule} {floor : Nat} {link : Reference}
      (htarget : link.target? = none) :
      Unfolds scope opened floor (.reference link) (.fault (unboundIn opened link))
  | back {opened : List OpenRule} {floor depth : Nat} {link : Reference} {target : Target}
      {rule : OpenRule} (htarget : link.target? = some target)
      (hdepth : opened.findIdx? (·.target == target) = some depth)
      (hopen : opened.find? (·.target == target) = some rule) :
      Unfolds scope opened floor (.reference link)
        (.recursion depth rule.name (decide (floor ≤ depth)))
  | missing {opened : List OpenRule} {floor : Nat} {link : Reference} {target : Target}
      (htarget : link.target? = some target) (hnew : ∀ other ∈ opened, other.target ≠ target)
      (hrule : scope.follow? target = none) :
      Unfolds scope opened floor (.reference link) (.fault (unboundIn opened link))
  | unusable {opened : List OpenRule} {floor : Nat} {link : Reference} {target : Target}
      {rule : Rule P} {reason : Unusable} (htarget : link.target? = some target)
      (hnew : ∀ other ∈ opened, other.target ≠ target) (hrule : scope.follow? target = some rule)
      (hunusable : rule.unusable? = some reason) :
      Unfolds scope opened floor (.reference link) (.fault reason)
  | enter {opened : List OpenRule} {floor : Nat} {link : Reference} {target : Target}
      {rule : Rule P} {part : Unfolding P} (htarget : link.target? = some target)
      (hnew : ∀ other ∈ opened, other.target ≠ target) (hrule : scope.follow? target = some rule)
      (husable : rule.unusable? = none)
      (hbody : Unfolds scope (opened ++ [⟨target, rule.name⟩]) floor rule.body part) :
      Unfolds scope opened floor (.reference link) (.rule target part)
  | noItem {opened : List OpenRule} {floor : Nat} :
      Unfolds scope opened floor (.sequence []) (.sequence [])
  | item {opened : List OpenRule} {floor : Nat} {item : Expansion P} {items : List (Expansion P)}
      {part : Unfolding P} {parts : List (Unfolding P)}
      (hitem : Unfolds scope opened (if items.isEmpty then floor else opened.length) item part)
      (hitems : Unfolds scope opened floor (.sequence items) (.sequence parts)) :
      Unfolds scope opened floor (.sequence (item :: items)) (.sequence (part :: parts))
  | noBranch {opened : List OpenRule} {floor : Nat} :
      Unfolds scope opened floor (.alternation []) (.choice [])
  | neverTaken {opened : List OpenRule} {floor : Nat} {branch : Branch P (Expansion P)}
      {branches : List (Branch P (Expansion P))} {parts : List (P × Unfolding P)}
      (hnever : ¬ 0 < branch.probability)
      (hrest : Unfolds scope opened floor (.alternation branches) (.choice parts)) :
      Unfolds scope opened floor (.alternation (branch :: branches)) (.choice parts)
  | taken {opened : List OpenRule} {floor : Nat} {branch : Branch P (Expansion P)}
      {branches : List (Branch P (Expansion P))} {part : Unfolding P}
      {parts : List (P × Unfolding P)} (hpositive : 0 < branch.probability)
      (hbody : Unfolds scope opened floor branch.body part)
      (hrest : Unfolds scope opened floor (.alternation branches) (.choice parts)) :
      Unfolds scope opened floor (.alternation (branch :: branches))
        (.choice ((branch.probability, part) :: parts))
  | copies {opened : List OpenRule} {floor : Nat} {body : Expansion P} {least most : Nat}
      {early last : Unfolding P}
      (hearly : 1 < max most least → Unfolds scope opened opened.length body early)
      (hlast : 0 < max most least → Unfolds scope opened floor body last) :
      Unfolds scope opened floor (.repetition body least (some most))
        (.copies least (Unfolding.copiesOf (max most least) (fun _ => early) fun _ => last))
  | loop {opened : List OpenRule} {floor least : Nat} {body : Expansion P} {part : Unfolding P}
      (hbody : Unfolds scope opened opened.length body part) :
      Unfolds scope opened floor (.repetition body least none) (.loop least part)
  | optional {opened : List OpenRule} {floor : Nat} {body : Expansion P} {part : Unfolding P}
      (hbody : Unfolds scope opened floor body part) :
      Unfolds scope opened floor (.optional body) (.copies 0 [part])
  | tagged {opened : List OpenRule} {floor : Nat} {body : Expansion P} {part : Unfolding P}
      {tags : List Tag} (hbody : Unfolds scope opened floor body part) :
      Unfolds scope opened floor (.tagged body tags) (.tagged part tags)

omit [BranchWeight P] in
theorem Unfolding.copiesOf_congr {count : Nat} {early last others final : Unfolding P}
    (hearly : 1 < count → others = early) (hlast : 0 < count → final = last) :
    copiesOf count (fun _ => others) (fun _ => final) =
      copiesOf count (fun _ => early) fun _ => last := by
  match count with
  | 0 => rfl
  | 1 => rw [hlast Nat.one_pos]; rfl
  | count + 2 => rw [hearly (by omega), hlast (by omega)]

namespace Scope

variable {scope : Scope P} {opened : List OpenRule} {floor : Nat}

omit [BranchWeight P] in
theorem findIdx?_eq_none_of_forall_target_ne {target : Target}
    (hnew : ∀ other ∈ opened, other.target ≠ target) :
    opened.findIdx? (·.target == target) = none :=
  List.findIdx?_eq_none_iff.mpr fun other hother => beq_eq_false_iff_ne.mpr (hnew other hother)

theorem unfoldReference_of_new {link : Reference} {target : Target} {rule : Rule P}
    (htarget : link.target? = some target) (hnew : ∀ other ∈ opened, other.target ≠ target)
    (hrule : scope.follow? target = some rule) (room : Nat) :
    scope.unfoldReference (room + 1) opened floor link =
      rule.unusable?.elim (.rule target (rule.body.unfold (scope.unfoldReference room)
        (opened ++ [⟨target, rule.name⟩]) floor)) .fault := by
  have hclosed := findIdx?_eq_none_of_forall_target_ne hnew
  cases hunusable : rule.unusable? with
  | none => simp only [unfoldReference, htarget, hclosed, hrule, hunusable, Option.elim_none]
  | some reason =>
      simp only [unfoldReference, htarget, hclosed, hrule, hunusable, Option.elim_some]

/-- With enough room an expansion is unfolded in no other way than it is computed to be. -/
theorem Unfolds.eq_unfold {expansion : Expansion P} {unfolding : Unfolding P}
    (hunfolds : scope.Unfolds opened floor expansion unfolding) {room : Nat}
    (hspacious : scope.Spacious room opened) :
    unfolding = expansion.unfold (scope.unfoldReference room) opened floor := by
  -- The room shrinks as rules are entered; in all other cases it is the same for the parts.
  induction hunfolds generalizing room with
  | literal => rfl
  | unbound htarget => rw [Expansion.unfold, unfoldReference, htarget]
  | back htarget hdepth hopen =>
      rw [Expansion.unfold, unfoldReference, htarget]
      dsimp only
      rw [hdepth, hopen]
  | missing htarget hnew hnone =>
      rw [Expansion.unfold, unfoldReference, htarget]
      dsimp only
      rw [findIdx?_eq_none_of_forall_target_ne hnew, hnone]
  | @unusable _ _ _ _ rule _ htarget hnew hrule hunusable =>
      obtain ⟨left, rfl, -⟩ := hspacious.enter rule.name (mem_targets hrule) hnew
      rw [Expansion.unfold, unfoldReference_of_new htarget hnew hrule, hunusable,
        Option.elim_some]
  | @enter _ _ _ _ rule _ htarget hnew hrule husable _ ih =>
      obtain ⟨left, rfl, hinside⟩ := hspacious.enter rule.name (mem_targets hrule) hnew
      rw [Expansion.unfold, unfoldReference_of_new htarget hnew hrule, husable,
        Option.elim_none, ih hinside]
  | noItem => rfl
  | item _ _ ihItem ihItems =>
      rw [ihItem hspacious, Unfolding.sequence.inj (ihItems hspacious)]
      rfl
  | noBranch => rfl
  | @neverTaken _ _ branch _ _ hnever _ ih =>
      obtain ⟨weight?, probability, body⟩ := branch
      rw [ih hspacious, Expansion.unfold, Expansion.unfold, Expansion.unfoldBranches, if_neg]
      exact fun hpositive => hnever (of_decide_eq_true hpositive)
  | @taken _ _ branch _ _ _ hpositive _ _ ihBody ihRest =>
      obtain ⟨weight?, probability, body⟩ := branch
      have htaken : BranchWeight.isPositive probability = true := decide_eq_true hpositive
      rw [ihBody hspacious, Unfolding.choice.inj (ihRest hspacious), Expansion.unfold,
        Expansion.unfoldBranches, if_pos htaken]
  | copies _ _ ihEarly ihLast =>
      rw [Unfolding.copiesOf_congr (fun hcount => ihEarly hcount hspacious)
        fun hcount => ihLast hcount hspacious]
      rfl
  | loop _ ih =>
      rw [ih hspacious]
      rfl
  | optional _ ih =>
      rw [ih hspacious]
      rfl
  | tagged _ ih =>
      rw [ih hspacious]
      rfl

/-! ## Everything is unfolded -/

section Expansions

variable {follow : List OpenRule → Nat → Reference → Unfolding P}

/-- Items one behind another are unfolded if each of them is. -/
theorem unfolds_unfoldItems {items : List (Expansion P)}
    (hitems : ∀ item ∈ items, ∀ floor,
      scope.Unfolds opened floor item (item.unfold follow opened floor)) (floor : Nat) :
    scope.Unfolds opened floor (.sequence items)
      (.sequence (Expansion.unfoldItems follow opened floor items)) := by
  induction items with
  | nil => exact .noItem
  | cons item items ih =>
      obtain ⟨hitem, hitems⟩ := List.forall_mem_cons.mp hitems
      rw [Expansion.unfoldItems]
      exact .item (hitem _) (ih hitems)

/-- Those branches that can be taken are unfolded if each of them is. -/
theorem unfolds_unfoldBranches {branches : List (Branch P (Expansion P))}
    (hall : ∀ branch ∈ branches, ∀ floor,
      scope.Unfolds opened floor branch.body (branch.body.unfold follow opened floor))
    (floor : Nat) :
    scope.Unfolds opened floor (.alternation branches)
      (.choice (Expansion.unfoldBranches follow opened floor branches)) := by
  induction branches with
  | nil => exact .noBranch
  | cons branch branches ih =>
      obtain ⟨hbranch, hbranches⟩ := List.forall_mem_cons.mp hall
      obtain ⟨weight?, probability, body⟩ := branch
      rw [Expansion.unfoldBranches]
      split
      · rename_i hpositive
        exact .taken (of_decide_eq_true hpositive) (hbranch floor) (ih hbranches)
      · rename_i hnever
        exact .neverTaken (fun hpositive => hnever (decide_eq_true hpositive)) (ih hbranches)

theorem unfolds_unfold
    (hfollow : ∀ floor link,
      scope.Unfolds opened floor (.reference link) (follow opened floor link))
    (expansion : Expansion P) (floor : Nat) :
    scope.Unfolds opened floor expansion (expansion.unfold follow opened floor) := by
  induction expansion using Expansion.structural generalizing floor with
  | literal text => exact .literal text
  | reference link => exact hfollow floor link
  | sequence items ih => exact unfolds_unfoldItems ih floor
  | alternation branches ih => exact unfolds_unfoldBranches ih floor
  | repetition body least most? ih =>
      cases most? with
      | none =>
          rw [Expansion.unfold]
          exact .loop (ih _)
      | some most =>
          rw [Expansion.unfold]
          exact .copies (fun _ => ih _) fun _ => ih _
  | optional body ih => exact .optional (ih floor)
  | tagged body tags ih => exact .tagged (ih floor)

end Expansions

/-- References are unfolded if there is room for the rules that are not open. -/
theorem unfolds_unfoldReference {room : Nat} (hspacious : scope.Spacious room opened)
    (floor : Nat) (link : Reference) :
    scope.Unfolds opened floor (.reference link)
      (scope.unfoldReference room opened floor link) := by
  induction room using Nat.strongRecOn generalizing opened floor link with
  | ind room ih =>
      unfold unfoldReference
      cases htarget : link.target? with
      | none => exact .unbound htarget
      | some target =>
          dsimp only
          split
          · rename_i depth rule hdepth hopen
            exact .back htarget hdepth hopen
          · rename_i hclosed
            have hnew := forall_target_ne_of_not_found hclosed
            cases hrule : scope.follow? target with
            | none => exact .missing htarget hnew hrule
            | some rule =>
                obtain ⟨left, rfl, hinside⟩ :=
                  hspacious.enter rule.name (mem_targets hrule) hnew
                dsimp only
                split
                · rename_i reason hunusable
                  exact .unusable htarget hnew hrule hunusable
                · rename_i husable
                  exact .enter htarget hnew hrule husable
                    (unfolds_unfold (fun floor link => ih left (Nat.lt_succ_self left) hinside
                      floor link) rule.body floor)

end Scope

/-! ## Rules inside each other -/

/-- In an unfolding some rules are unfolded inside each other, the outermost first. -/
inductive Unfolding.Nests : List Target → Unfolding P → Prop where
  | nil (unfolding : Unfolding P) : Nests [] unfolding
  | rule {target : Target} {targets : List Target} {body : Unfolding P}
      (hbody : Nests targets body) : Nests (target :: targets) (.rule target body)
  | sequence {targets : List Target} {items : List (Unfolding P)} {item : Unfolding P}
      (hmem : item ∈ items) (hitem : Nests targets item) : Nests targets (.sequence items)
  | choice {targets : List Target} {branches : List (P × Unfolding P)} {branch : P × Unfolding P}
      (hmem : branch ∈ branches) (hbody : Nests targets branch.2) :
      Nests targets (.choice branches)
  | copies {targets : List Target} {least : Nat} {items : List (Unfolding P)}
      {item : Unfolding P} (hmem : item ∈ items) (hitem : Nests targets item) :
      Nests targets (.copies least items)
  | loop {targets : List Target} {least : Nat} {body : Unfolding P}
      (hbody : Nests targets body) : Nests targets (.loop least body)
  | tagged {targets : List Target} {body : Unfolding P} {tags : List Tag}
      (hbody : Nests targets body) : Nests targets (.tagged body tags)

omit [BranchWeight P] in
/-- Rules that are unfolded inside each other somewhere are so in one of the parts. -/
theorem Unfolding.passesUp_nests {allowed : List Target → Prop} (hnil : allowed []) :
    PassesUp fun unfolding : Unfolding P => ∀ targets, unfolding.Nests targets →
      allowed targets where
  word text := by
    rintro _ ⟨⟩
    exact hnil
  sequence hitems := by
    rintro targets (_ | _ | ⟨hmem, hitem⟩)
    · exact hnil
    · exact hitems _ hmem targets hitem
  choice hbranches := by
    rintro targets (_ | _ | _ | ⟨hmem, hbody⟩)
    · exact hnil
    · exact hbranches _ hmem targets hbody
  copies hitems := by
    rintro targets (_ | _ | _ | _ | ⟨hmem, hitem⟩)
    · exact hnil
    · exact hitems _ hmem targets hitem
  loop hbody := by
    rintro targets (_ | _ | _ | _ | _ | hbodyNests)
    · exact hnil
    · exact hbody targets hbodyNests
  tagged hbody := by
    rintro targets (_ | _ | _ | _ | _ | _ | hbodyNests)
    · exact hnil
    · exact hbody targets hbodyNests

namespace Scope

variable {scope : Scope P} {opened : List OpenRule}

/-- Rules of a scope, none of them twice and none of them open. -/
structure Unopened (scope : Scope P) (opened : List OpenRule) (targets : List Target) : Prop where
  nodup : (opened.map (·.target) ++ targets).Nodup
  known : targets ⊆ scope.targets

omit [BranchWeight P] in
theorem Spacious.unopened_nil {room : Nat} (hspacious : scope.Spacious room opened) :
    scope.Unopened opened [] where
  nodup := by rw [List.append_nil]; exact hspacious.nodup
  known := List.nil_subset _

omit [BranchWeight P] in
theorem Unopened.cons {target : Target} {name : String} {targets : List Target}
    (hunopened : scope.Unopened (opened ++ [⟨target, name⟩]) targets)
    (htarget : target ∈ scope.targets) : scope.Unopened opened (target :: targets) where
  nodup := by
    have hnodup := hunopened.nodup
    rwa [List.map_append, List.map_singleton, List.append_assoc] at hnodup
  known := List.cons_subset.mpr ⟨htarget, hunopened.known⟩

omit [BranchWeight P] in
theorem Unopened.length_le {targets : List Target} (hunopened : scope.Unopened opened targets)
    (hopened : ∀ rule ∈ opened, rule.target ∈ scope.targets) :
    opened.length + targets.length ≤ scope.ruleCount := by
  have hsubset : opened.map (·.target) ++ targets ⊆ scope.targets :=
    List.append_subset.mpr ⟨List.forall_mem_map.mpr hopened, hunopened.known⟩
  have hlength := hunopened.nodup.length_le_of_subset hsubset
  rwa [List.length_append, List.length_map, length_targets] at hlength

/-- No rule is unfolded inside itself or a rule that is open already. -/
theorem unopened_of_nests {room : Nat} (hspacious : scope.Spacious room opened) (floor : Nat)
    (link : Reference) (targets : List Target)
    (hnests : (scope.unfoldReference room opened floor link).Nests targets) :
    scope.Unopened opened targets := by
  induction room using Nat.strongRecOn generalizing opened floor link targets with
  | ind room ih =>
      rcases unfoldReference_cases scope room opened floor link with ⟨reason, heq, -⟩ |
        ⟨target, -, ⟨depth, rule, -, -, -, heq⟩ | ⟨left, rule, rfl, hrule, hnew, heq⟩⟩
      · rw [heq] at hnests
        cases hnests
        exact hspacious.unopened_nil
      · rw [heq] at hnests
        cases hnests
        exact hspacious.unopened_nil
      · rw [heq] at hnests
        cases hnests with
        | nil => exact hspacious.unopened_nil
        | @rule _ inside _ hbody =>
            have htarget := mem_targets hrule
            obtain ⟨less, hroom, hinside⟩ := hspacious.enter rule.name htarget hnew
            obtain rfl := Nat.succ.inj hroom
            have hunopened := Expansion.holds_unfold
              (Unfolding.passesUp_nests hinside.unopened_nil) floor rule.body
              (fun inner _ near => ih left (Nat.lt_succ_self left) hinside near inner)
            exact (hunopened inside hbody).cons htarget

/-! ## Building -/

variable [LogWeight W] [Logarithm P W]

/--
How the automaton of a public rule is built: given a language weight that can
be used, the rule is unfolded, and what it is unfolded to is wired unless a
fault is met in it.
-/
inductive Builds (scope : Scope P) (rule : String) (languageWeight : P) :
    Except (Refusal P) (Automaton P W) → Prop where
  | unfit
      (hunfit : ¬ (BranchWeight.isFinite languageWeight = true ∧ 0 < languageWeight)) :
      Builds scope rule languageWeight (.error (.languageWeight languageWeight))
  | refused {refusal : Refusal P} (hfinite : BranchWeight.isFinite languageWeight = true)
      (hpositive : 0 < languageWeight) (hpublic : scope.grammar.public rule = .error refusal) :
      Builds scope rule languageWeight (.error refusal)
  | unusable {target : Target} {top : Rule P} {unfolding : Unfolding P} {reason : Unusable}
      (hfinite : BranchWeight.isFinite languageWeight = true) (hpositive : 0 < languageWeight)
      (hpublic : scope.grammar.public rule = .ok (target, top))
      (hunfolds : scope.Unfolds [] 0 (.reference ⟨top.name, some target⟩) unfolding)
      (hfault : unfolding.report.fault? = some reason) :
      Builds scope rule languageWeight (.error (.unusable reason))
  | built {target : Target} {top : Rule P} {unfolding : Unfolding P}
      (hfinite : BranchWeight.isFinite languageWeight = true) (hpositive : 0 < languageWeight)
      (hpublic : scope.grammar.public rule = .ok (target, top))
      (hunfolds : scope.Unfolds [] 0 (.reference ⟨top.name, some target⟩) unfolding)
      (hfaultless : unfolding.Faultless) :
      Builds scope rule languageWeight
        (.ok (unfolding.automaton (scope.automatonName rule) languageWeight))

/-- Building comes to an end with what is computed. -/
theorem builds_iff {rule : String} {languageWeight : P}
    {outcome : Except (Refusal P) (Automaton P W)} :
    scope.Builds rule languageWeight outcome ↔ scope.buildRaw rule languageWeight = outcome := by
  have hunfolds (target : Target) (top : Rule P) :
      scope.Unfolds [] 0 (.reference ⟨top.name, some target⟩)
        (scope.publicUnfolding target top) :=
    unfolds_unfoldReference scope.spacious_nil 0 ⟨top.name, some target⟩
  have hunique {target : Target} {top : Rule P} {other : Unfolding P}
      (hother : scope.Unfolds [] 0 (.reference ⟨top.name, some target⟩) other) :
      other = scope.publicUnfolding target top :=
    hother.eq_unfold scope.spacious_nil
  rw [buildRaw]
  constructor
  · rintro (hunfit | ⟨hfinite, hpositive, hpublic⟩ |
      ⟨hfinite, hpositive, hpublic, hother, hfault⟩ |
      ⟨hfinite, hpositive, hpublic, hother, hfaultless⟩)
    · rw [unfoldPublic, if_neg (by simpa [BranchWeight.isPositive] using hunfit)]
      rfl
    · rw [unfoldPublic_eq_map rule hfinite hpositive, hpublic]
      rfl
    · rw [unfoldPublic_eq_map rule hfinite hpositive, hpublic]
      obtain rfl := hunique hother
      dsimp only [Except.map, bind, Except.bind]
      rw [hfault]
    · rw [unfoldPublic_eq_map rule hfinite hpositive, hpublic]
      obtain rfl := hunique hother
      dsimp only [Except.map, bind, Except.bind]
      rw [hfaultless]
      rfl
  · rintro rfl
    by_cases hfit : BranchWeight.isFinite languageWeight = true ∧ 0 < languageWeight
    · obtain ⟨hfinite, hpositive⟩ := hfit
      rw [unfoldPublic_eq_map rule hfinite hpositive]
      cases hpublic : scope.grammar.public rule with
      | error refusal => exact .refused hfinite hpositive hpublic
      | ok found =>
          obtain ⟨target, top⟩ := found
          dsimp only [Except.map, bind, Except.bind]
          cases hfault : (scope.publicUnfolding target top).report.fault? with
          | some reason => exact .unusable hfinite hpositive hpublic (hunfolds target top) hfault
          | none => exact .built hfinite hpositive hpublic (hunfolds target top) hfault
    · rw [unfoldPublic, if_neg (by simpa [BranchWeight.isPositive] using hfit)]
      exact .unfit hfit

/--
Building always comes to an end, in one way, with what is computed.  Inside any
open rules of the scope that are all different every expansion is unfolded, in
one way.  None of the rules unfolded inside each other there is open already or
comes up twice, so that no more rules are ever open than there are.
-/
theorem building_terminates (scope : Scope P) :
    (∀ (rule : String) (languageWeight : P) (outcome : Except (Refusal P) (Automaton P W)),
      scope.Builds rule languageWeight outcome ↔
        scope.buildRaw rule languageWeight = outcome) ∧
      ∀ opened : List OpenRule, (opened.map (·.target)).Nodup →
        (∀ rule ∈ opened, rule.target ∈ scope.targets) →
        ∀ (floor : Nat) (expansion : Expansion P), ∃ unfolding : Unfolding P,
          (∀ other, scope.Unfolds opened floor expansion other ↔ other = unfolding) ∧
          ∀ targets, unfolding.Nests targets →
            (opened.map (·.target) ++ targets).Nodup ∧ targets ⊆ scope.targets ∧
              opened.length + targets.length ≤ scope.ruleCount := by
  refine ⟨fun _ _ _ => builds_iff, fun opened hnodup hknown floor expansion => ?_⟩
  have hspacious : scope.Spacious scope.ruleCount opened :=
    ⟨hnodup, hknown, Nat.le_add_right ..⟩
  have hunfolds := unfolds_unfold (unfolds_unfoldReference hspacious) expansion floor
  refine ⟨_, fun other => ⟨fun hother => hother.eq_unfold hspacious, fun heq => heq ▸ hunfolds⟩,
    fun targets hnests => ?_⟩
  have hunopened := Expansion.holds_unfold (Unfolding.passesUp_nests hspacious.unopened_nil)
    floor expansion (fun link _ near => unopened_of_nests hspacious near link) targets hnests
  exact ⟨hunopened.nodup, hunopened.known, hunopened.length_le hknown⟩

def arguingText : String := "public <ask> = <reply>+ | why; <reply> = because <ask>;"

def arguing : Scope ℚ := (parseLenient ⟨0⟩ arguingText none).1

/--
Building `<ask>` ends with an automaton of 14 states, and unfolding `<reply>` inside `<ask>` nests
one rule at most.
-/
theorem arguing_terminates :
    (∃ automaton : Automaton ℚ (WithBot ℚ),
      arguing.Builds "ask" 1 (.ok automaton) ∧ automaton.stateCount = 14) ∧
      ∃ unfolding : Unfolding ℚ,
        arguing.Unfolds [⟨⟨⟨0⟩, 0⟩, "ask"⟩] 1 (.reference ⟨"reply", some ⟨⟨0⟩, 1⟩⟩) unfolding ∧
        ∀ targets, unfolding.Nests targets → targets.length ≤ 1 := by
  obtain ⟨hbuilds, hunfolds⟩ := arguing.building_terminates (W := WithBot ℚ)
  obtain ⟨automaton, hbuild, hcount⟩ := exists_of_toOption_map_eq_some
    (by decide +kernel : ((arguing.buildRaw "ask" 1 :
      Except _ (Automaton ℚ (WithBot ℚ))).map (·.stateCount)).toOption = some 14)
  obtain ⟨unfolding, hunfolding, hnests⟩ := hunfolds [⟨⟨⟨0⟩, 0⟩, "ask"⟩]
    (List.nodup_singleton _) (by decide +kernel) 1 (.reference ⟨"reply", some ⟨⟨0⟩, 1⟩⟩)
  refine ⟨⟨automaton, (hbuilds ..).mpr hbuild, hcount⟩, unfolding,
    (hunfolding _).mpr rfl, fun targets htargets => ?_⟩
  have hrules : arguing.ruleCount = 2 := by decide +kernel
  have hlength := (hnests targets htargets).2.2
  rw [hrules, List.length_singleton] at hlength
  omega

end Scope

end SpeechGrammar
