import SpeechGrammar.Proofs.Unfolding.Labelling
import SpeechGrammar.Proofs.Unfolding.Containment

/-!
# What is read off trees is read along paths

Every derivation tree of an expansion has a route through each piece that the
expansion is wired as, if the returns of the piece are right.  The route ends
where the piece does or, after an exact return, at the exit of an open rule
that is at its end there.  Open rules are wired one inside another, so what a
return enters is a rule that has routes, and these end nowhere further out
than the floor of that rule.
-/

namespace SpeechGrammar

variable {P W : Type} [BranchWeight P] [ExactWeight W]

/-- A path with a reading from a state to another, or to the exit of a rule at its end. -/
def Route (transitions : List (Transition W)) (doors : List Doors) (floor first last : Nat)
    (reading : Reading W) : Prop :=
  ∃ steps final, PathIn transitions first steps final ∧ readingOf steps = reading ∧
    (final = last ∨ ∃ depth, floor ≤ depth ∧ ∃ door ∈ doors[depth]?, final = door.exit)

namespace Route

variable {transitions : List (Transition W)} {doors : List Doors}
  {floor first middle last : Nat} {reading other : Reading W} {tags : TagSet}

theorem refl : Route transitions doors floor last last (.silent 0) :=
  ⟨[], last, rfl, readingOf_nil, .inl rfl⟩

theorem step {step : Transition W} (hstep : step ∈ transitions)
    (hroute : Route transitions doors floor step.target last reading) :
    Route transitions doors floor step.source last (step.reading.append reading) := by
  obtain ⟨steps, final, hpath, rfl, hfinal⟩ := hroute
  exact ⟨step :: steps, final, ⟨hstep, rfl, hpath⟩, readingOf_cons .., hfinal⟩

theorem epsilon (hstep : Unfolding.epsilon tags first last ∈ transitions) :
    Route transitions doors floor first last ((Reading.silent 0).mark tags) := by
  rw [← reading_epsilon_append tags first last]
  exact Route.step hstep Route.refl

theorem enter (hstep : Unfolding.epsilon tags first middle ∈ transitions)
    (hroute : Route transitions doors floor middle last (reading.mark tags)) :
    Route transitions doors floor first last (reading.mark tags) := by
  have hboth := Route.step hstep hroute
  rwa [reading_epsilon_append, Reading.mark_mark_self] at hboth

/--
A route may be followed by another one.  If it may end at the exit of an open
rule instead, nothing must be read behind it.
-/
theorem trans {higher : Nat} (hfirst : Route transitions doors higher first middle reading)
    (hsecond : Route transitions doors floor middle last other) (hle : floor ≤ higher)
    (hexit : doors.length ≤ higher ∨ reading.append other = reading) :
    Route transitions doors floor first last (reading.append other) := by
  obtain ⟨steps, final, hpath, rfl, rfl | ⟨depth, hdepth, door, hdoor, rfl⟩⟩ := hfirst
  · obtain ⟨rest, final, hrest, rfl, hfinal⟩ := hsecond
    exact ⟨steps ++ rest, final, hpath.append hrest, readingOf_append .., hfinal⟩
  · rcases hexit with haside | hsame
    · rw [List.getElem?_eq_none (haside.trans hdepth)] at hdoor
      cases hdoor
    · rw [hsame]
      exact ⟨steps, door.exit, hpath, rfl, .inr ⟨depth, hle.trans hdepth, door, hdoor, rfl⟩⟩

theorem leave (hroute : Route transitions doors floor first middle (reading.mark tags))
    (hstep : Unfolding.epsilon tags middle last ∈ transitions) :
    Route transitions doors floor first last (reading.mark tags) := by
  have hsame : (reading.mark tags).append ((Reading.silent 0).mark tags) = reading.mark tags := by
    rw [Reading.append_mark, Reading.append_silent_zero, Reading.mark_mark_self]
  have hboth := hroute.trans (Route.epsilon hstep) (le_refl _) (.inr hsame)
  rwa [hsame] at hboth

theorem of_aside {others : List Doors} {lower : Nat}
    (hroute : Route transitions others floor first last reading) (haside : others.length ≤ floor) :
    Route transitions doors lower first last reading := by
  obtain ⟨steps, final, hpath, hreading, rfl | ⟨depth, hdepth, door, hdoor, -⟩⟩ := hroute
  · exact ⟨steps, final, hpath, hreading, .inl rfl⟩
  · rw [List.getElem?_eq_none (haside.trans hdepth)] at hdoor
    cases hdoor

theorem of_le {lower : Nat} (hroute : Route transitions doors floor first last reading)
    (hle : lower ≤ floor) : Route transitions doors lower first last reading := by
  obtain ⟨steps, final, hpath, hreading, hfinal⟩ := hroute
  refine ⟨steps, final, hpath, hreading, hfinal.imp_right ?_⟩
  exact fun ⟨depth, hdepth, hexit⟩ => ⟨depth, hle.trans hdepth, hexit⟩

theorem of_prefix {fewer : List Doors} (hroute : Route transitions fewer floor first last reading)
    (hshorter : fewer <+: doors) : Route transitions doors floor first last reading := by
  obtain ⟨steps, final, hpath, hreading, hfinal⟩ := hroute
  refine ⟨steps, final, hpath, hreading, hfinal.imp_right ?_⟩
  rintro ⟨depth, hdepth, door, hdoor, rfl⟩
  obtain ⟨more, rfl⟩ := hshorter
  refine ⟨depth, hdepth, door, ?_, rfl⟩
  rwa [List.getElem?_append_left (List.getElem?_eq_some_iff.mp hdoor).1]

theorem of_exit {depth : Nat} {door : Doors}
    (hroute : Route transitions doors floor first door.exit reading) (hdepth : floor ≤ depth)
    (hdoor : doors[depth]? = some door) : Route transitions doors floor first last reading := by
  obtain ⟨steps, final, hpath, hreading, hfinal⟩ := hroute
  refine ⟨steps, final, hpath, hreading, .inr ?_⟩
  rcases hfinal with rfl | hopen
  · exact ⟨depth, hdepth, door, hdoor, rfl⟩
  · exact hopen

theorem of_concat {entry : Nat}
    (hroute : Route transitions (doors ++ [⟨entry, last⟩]) floor first last reading) :
    Route transitions doors floor first last reading := by
  obtain ⟨steps, final, hpath, hreading, rfl | ⟨depth, hdepth, door, hdoor, rfl⟩⟩ := hroute
  · exact ⟨steps, final, hpath, hreading, .inl rfl⟩
  · rcases getElem?_concat_eq_some_iff.mp hdoor with hdoor | ⟨-, rfl⟩
    · exact ⟨steps, door.exit, hpath, hreading, .inr ⟨depth, hdepth, door, hdoor, rfl⟩⟩
    · exact ⟨steps, last, hpath, hreading, .inl rfl⟩

end Route

namespace Scope

variable [ExactLogarithm P W] {scope : Scope P} {languageWeight : P}
  {transitions : List (Transition W)} {opened : List OpenRule} {doors : List Doors}
  {floors : List Nat} {floor : Nat} {tags : TagSet}

/--
Rules that are open one inside another, each wired among some transitions.
Every one of them has a floor and is covered with that.
-/
inductive Nested (scope : Scope P) (languageWeight : P) (transitions : List (Transition W)) :
    List OpenRule → List Doors → List Nat → Nat → TagSet → Prop where
  | outermost : Nested scope languageWeight transitions [] [] [] 0 .empty
  | enter {opened : List OpenRule} {doors : List Doors} {floors : List Nat} {floor lower : Nat}
      {tags : TagSet} {room near next : Nat} {target : Target} {rule : Rule P}
      (hnested : Nested scope languageWeight transitions opened doors floors floor tags)
      (hlower : lower ≤ floors.length)
      (hrule : scope.follow? target = some rule)
      (hcovered : (rule.body.unfold (scope.unfoldReference room)
        (opened ++ [⟨target, rule.name⟩]) near).Covered (floors ++ [lower]) lower)
      (hwired : ((Unfolding.rule target (rule.body.unfold (scope.unfoldReference room)
        (opened ++ [⟨target, rule.name⟩]) near)).wire languageWeight doors tags next :
        Piece W).transitions ⊆ transitions) :
      Nested scope languageWeight transitions (opened ++ [⟨target, rule.name⟩])
        (doors ++ [⟨next, next + 1⟩]) (floors ++ [lower]) lower tags
  /-- Where something follows no open rule is at its end. -/
  | aside {opened : List OpenRule} {doors : List Doors} {floors : List Nat} {floor : Nat}
      {tags : TagSet}
      (hnested : Nested scope languageWeight transitions opened doors floors floor tags) :
      Nested scope languageWeight transitions opened doors floors floors.length tags
  | tagged {opened : List OpenRule} {doors : List Doors} {floors : List Nat} {floor : Nat}
      {tags : TagSet} (more : TagSet)
      (hnested : Nested scope languageWeight transitions opened doors floors floor tags) :
      Nested scope languageWeight transitions opened doors floors floor (tags.union more)

theorem Nested.length_eq
    (hnested : scope.Nested languageWeight transitions opened doors floors floor tags) :
    doors.length = opened.length := by
  induction hnested with
  | outermost => rfl
  | enter _ _ _ _ _ ih => simp [ih]
  | aside _ ih => exact ih
  | tagged _ _ ih => exact ih

theorem Nested.length_floors
    (hnested : scope.Nested languageWeight transitions opened doors floors floor tags) :
    floors.length = doors.length := by
  induction hnested with
  | outermost => rfl
  | enter _ _ _ _ _ ih => simp [ih]
  | aside _ ih => exact ih
  | tagged _ _ ih => exact ih

theorem Nested.floor_le
    (hnested : scope.Nested languageWeight transitions opened doors floors floor tags) :
    floor ≤ doors.length := by
  induction hnested with
  | outermost => exact le_refl _
  | enter hnested hlower =>
      have hlength := hnested.length_floors
      simp only [List.length_append]
      omega
  | aside hnested _ => exact hnested.length_floors.le
  | tagged _ _ ih => exact ih

/-- A tree has a route through an unfolding wherever that is wired inside open rules. -/
def Routed (scope : Scope P) (languageWeight : P) (transitions : List (Transition W))
    (opened : List OpenRule) (floors : List Nat) (floor : Nat) (unfolding : Unfolding P)
    (tree : Tree P) : Prop :=
  ∀ ⦃doors : List Doors⦄ ⦃tags : TagSet⦄ ⦃next : Nat⦄,
    scope.Nested languageWeight transitions opened doors floors floor tags →
    (unfolding.wire languageWeight doors tags next : Piece W).transitions ⊆ transitions →
    Route transitions doors floor (unfolding.wire languageWeight doors tags next : Piece W).first
      (unfolding.wire languageWeight doors tags next : Piece W).last
      ((tree.reading languageWeight).mark tags)

theorem routed_word (text : String) :
    scope.Routed languageWeight transitions opened floors floor (.word text) (.word text) := by
  intro doors tags next hnested hwired
  rw [Unfolding.wire] at hwired ⊢
  have hreading : ((Tree.word text : Tree P).reading languageWeight).mark tags =
      (Transition.reading ⟨next, next + 1, some text, 0, tags⟩).append (.silent (0 : W)) := by
    simp [Transition.reading, Reading.append, Reading.mark, Reading.silent]
  rw [hreading]
  exact Route.step (hwired (List.mem_singleton_self _)) Route.refl

theorem routed_tagged {unfolding : Unfolding P} {tree : Tree P} (extra : List Tag)
    (hbody : scope.Routed languageWeight transitions opened floors floor unfolding tree) :
    scope.Routed languageWeight transitions opened floors floor (.tagged unfolding extra)
      (.tagged tree extra) := by
  intro doors tags next hnested hwired
  rw [Unfolding.wire, SortedSet.insertAll_eq_union] at hwired ⊢
  rw [reading_tagged, Reading.mark_mark]
  exact hbody (hnested.tagged _) hwired

/-! ## Rules -/

/-- A tree of an open rule's body has a route through the rule's doors. -/
theorem route_rule {target : Target} {name : String} {unfolding : Unfolding P} {tree : Tree P}
    {next : Nat}
    (hentered : scope.Nested languageWeight transitions (opened ++ [⟨target, name⟩])
      (doors ++ [⟨next, next + 1⟩]) floors floor tags)
    (hbody : scope.Routed languageWeight transitions (opened ++ [⟨target, name⟩]) floors floor
      unfolding tree)
    (hwired : ((Unfolding.rule target unfolding).wire languageWeight doors tags next :
      Piece W).transitions ⊆ transitions) :
    Route transitions doors floor next (next + 1) ((tree.reading languageWeight).mark tags) := by
  rw [Unfolding.wire] at hwired
  obtain ⟨hinner, hdoors⟩ := List.append_subset.mp hwired
  obtain ⟨hentry, hexit⟩ := List.cons_subset.mp hdoors
  exact (Route.enter hentry
    (Route.leave (hbody hentered hinner) (hexit (List.mem_singleton_self _)))).of_concat

section References

variable {target : Target} {rule : Rule P} {tree : Tree P}
  (hrule : scope.follow? target = some rule)
  (hbody : ∀ room opened near floors lower,
    (rule.body.unfold (scope.unfoldReference room) opened near).Covered floors lower →
    scope.Routed languageWeight transitions opened floors lower
      (rule.body.unfold (scope.unfoldReference room) opened near) tree)
include hrule hbody

/-- A tree of an open rule has a route through it, which ends no further out than the floor. -/
theorem Nested.exists_route
    (hnested : scope.Nested languageWeight transitions opened doors floors floor tags)
    {depth lower : Nat} (hlower : floors[depth]? = some lower) {entered : OpenRule}
    (hentered : opened[depth]? = some entered) (htarget : entered.target = target) :
    lower ≤ depth ∧ ∃ next before more, doors[depth]? = some ⟨next, next + 1⟩ ∧
      tags = before.union more ∧
      Route transitions (doors.take depth) lower next (next + 1)
        ((tree.reading languageWeight).mark before) := by
  induction hnested with
  | outermost => cases hentered
  | @enter opened doors floors floor inner tags room near next other found hnested hle hfound
      hcovered hwired ih =>
      have hlength := hnested.length_eq
      have hfloors := hnested.length_floors
      rcases getElem?_concat_eq_some_iff.mp hentered with hentered | ⟨rfl, rfl⟩
      · have hlt := (List.getElem?_eq_some_iff.mp hentered).1
        rw [List.getElem?_append_left (by omega)] at hlower
        rw [List.getElem?_append_left (by omega), List.take_append_of_le_length (by omega)]
        exact ih hlower hentered
      · rw [← hlength] at hlower ⊢
        rw [← hfloors, List.getElem?_concat_length] at hlower
        obtain rfl := Option.some.inj hlower
        obtain rfl : other = target := htarget
        obtain rfl := Option.some.inj (hrule.symm.trans hfound)
        rw [List.getElem?_concat_length, List.take_left]
        refine ⟨hfloors ▸ hle, next, tags, .empty, rfl, (SortedSet.union_empty tags).symm, ?_⟩
        exact route_rule (hnested.enter hle hrule hcovered hwired) (hbody _ _ _ _ _ hcovered)
          hwired
  | aside _ ih => exact ih hlower hentered
  | tagged others _ ih =>
      obtain ⟨hle, next, before, more, hdoor, rfl, hroute⟩ := ih hlower hentered
      exact ⟨hle, next, before, more.union others, hdoor, SortedSet.union_assoc .., hroute⟩

/-- A tree of an open rule has a route through a return to the rule. -/
theorem routed_recursion {depth : Nat} {name : String} {exact : Bool} {entered : OpenRule}
    (hentered : opened[depth]? = some entered) (htarget : entered.target = target)
    (hcovered : (Unfolding.recursion depth name exact : Unfolding P).Covered floors floor) :
    scope.Routed languageWeight transitions opened floors floor (.recursion depth name exact)
      (.rule target tree) := by
  intro doors tags next hnested hwired
  obtain ⟨lower, hlower, hexact⟩ := hcovered
  obtain ⟨hle, start, before, more, hdoor, rfl, hroute⟩ :=
    hnested.exists_route hrule hbody hlower hentered htarget
  rw [reading_rule]
  rw [Unfolding.wire, List.getD_eq_getElem?_getD, hdoor, Option.getD_some] at hwired
  rw [Unfolding.wire]
  obtain ⟨hentry, hexit⟩ := List.cons_subset.mp hwired
  have htags : (before.union more).union before = before.union more := by
    rw [SortedSet.union_comm, ← SortedSet.union_assoc, SortedSet.union_self]
  have hreturn : ∀ {last : Nat},
      Route transitions doors floor start last ((tree.reading languageWeight).mark before) →
      Route transitions doors floor next last
        ((tree.reading languageWeight).mark (before.union more)) := by
    intro last hinside
    have hstep := Route.step hentry hinside
    rwa [reading_epsilon_append, Reading.mark_mark, htags] at hstep
  cases exact with
  | true =>
      have hfloor : floor ≤ lower := hexact
      have hinside := (hroute.of_prefix (List.take_prefix depth doors)).of_le hfloor
      exact hreturn (hinside.of_exit (hfloor.trans hle) hdoor)
  | false =>
      -- Inside a rule that ends at its own exit a route ends there, and the return goes on.
      obtain rfl : lower = depth := hexact
      have hinside : Route transitions doors floor start (start + 1)
          ((tree.reading languageWeight).mark before) := hroute.of_aside (by simp)
      exact (hreturn hinside).leave (hexit (List.mem_singleton_self _))

theorem routed_reference {room near : Nat} {link : Reference} (hlink : link.target? = some target)
    (hcovered : (scope.unfoldReference room opened near link).Covered floors floor) :
    scope.Routed languageWeight transitions opened floors floor
      (scope.unfoldReference room opened near link) (.rule target tree) := by
  rcases unfoldReference_cases scope room opened near link with ⟨reason, heq, -⟩ |
    ⟨other, hother, ⟨depth, entered, hentered, htarget, -, heq⟩ |
      ⟨left, found, rfl, hfound, -, heq⟩⟩
  · rw [heq] at hcovered
    exact hcovered.elim
  · rw [heq] at hcovered ⊢
    obtain rfl := Option.some.inj (hlink.symm.trans hother)
    exact routed_recursion hrule hbody hentered htarget hcovered
  · rw [heq] at hcovered ⊢
    obtain rfl := Option.some.inj (hlink.symm.trans hother)
    obtain rfl := Option.some.inj (hrule.symm.trans hfound)
    obtain ⟨lower, hle, hlower, hinner⟩ := hcovered
    intro doors tags next hnested hwired
    have hroute := route_rule (hnested.enter hlower hrule hinner hwired)
      (hbody _ _ _ _ _ hinner) hwired
    rw [Unfolding.wire, reading_rule]
    exact hroute.of_le hle

end References

/-! ## Sequences and choices -/

/-- Trees have a route through the later items of a sequence, apart from the tags around them. -/
def RoutedItems (scope : Scope P) (languageWeight : P) (transitions : List (Transition W))
    (opened : List OpenRule) (floors : List Nat) (floor : Nat) (unfoldings : List (Unfolding P))
    (trees : List (Tree P)) : Prop :=
  ∀ ⦃doors : List Doors⦄ ⦃tags : TagSet⦄ ⦃last next : Nat⦄,
    scope.Nested languageWeight transitions opened doors floors floor tags →
    (Unfolding.wireItems languageWeight doors tags last next unfoldings :
      Piece W).transitions ⊆ transitions →
    ∃ reading, Route transitions doors floor last
        (Unfolding.wireItems languageWeight doors tags last next unfoldings : Piece W).last
        reading ∧
      (unfoldings = [] → reading = .silent 0) ∧
      reading.mark tags = ((Tree.sequence trees).reading languageWeight).mark tags

theorem routedItems_nil :
    scope.RoutedItems languageWeight transitions opened floors floor [] [] := by
  intro doors tags last next hnested hwired
  rw [Unfolding.wireItems]
  exact ⟨_, Route.refl, fun _ => rfl, by rw [reading_nil]⟩

/-- A tree of an item and trees of the later ones have a route through all of them. -/
theorem route_item {head : Unfolding P} {unfoldings : List (Unfolding P)} {tree : Tree P}
    {trees : List (Tree P)} {next : Nat}
    (hhead : scope.Routed languageWeight transitions opened floors
      (if unfoldings.isEmpty then floor else floors.length) head tree)
    (hitems : scope.RoutedItems languageWeight transitions opened floors floor unfoldings trees)
    (hnested : scope.Nested languageWeight transitions opened doors floors floor tags)
    (hwired : (head.wire languageWeight doors tags next : Piece W).transitions ⊆ transitions)
    (hwiredItems : (Unfolding.wireItems languageWeight doors tags
      (head.wire languageWeight doors tags next : Piece W).last
      (head.wire languageWeight doors tags next : Piece W).next unfoldings :
      Piece W).transitions ⊆ transitions) :
    Route transitions doors floor (head.wire languageWeight doors tags next : Piece W).first
      (Unfolding.wireItems languageWeight doors tags
        (head.wire languageWeight doors tags next : Piece W).last
        (head.wire languageWeight doors tags next : Piece W).next unfoldings : Piece W).last
      (((Tree.sequence (tree :: trees)).reading languageWeight).mark tags) := by
  obtain ⟨reading, hroute, hnil, hreading⟩ := hitems hnested hwiredItems
  have hboth : ((tree.reading languageWeight).mark tags).append reading =
      ((Tree.sequence (tree :: trees)).reading languageWeight).mark tags := by
    rw [Reading.mark_append, ← Reading.append_mark, hreading, reading_cons, Reading.append_mark]
  rw [← hboth]
  cases unfoldings with
  | nil =>
      refine (hhead hnested hwired).trans hroute (le_refl _) (.inr ?_)
      rw [hnil rfl, Reading.append_silent_zero]
  | cons next unfoldings =>
      have hlength := hnested.length_floors
      exact (hhead hnested.aside hwired).trans hroute (hlength.symm ▸ hnested.floor_le)
        (.inl hlength.ge)

theorem routedItems_cons {head : Unfolding P} {unfoldings : List (Unfolding P)} {tree : Tree P}
    {trees : List (Tree P)}
    (hhead : scope.Routed languageWeight transitions opened floors
      (if unfoldings.isEmpty then floor else floors.length) head tree)
    (hitems : scope.RoutedItems languageWeight transitions opened floors floor unfoldings trees) :
    scope.RoutedItems languageWeight transitions opened floors floor (head :: unfoldings)
      (tree :: trees) := by
  intro doors tags last next hnested hwired
  rw [Unfolding.wireItems] at hwired ⊢
  obtain ⟨hwiredHead, hrest⟩ := List.append_subset.mp hwired
  obtain ⟨hstep, hwiredItems⟩ := List.cons_subset.mp hrest
  exact ⟨_, Route.enter hstep (route_item hhead hitems hnested hwiredHead hwiredItems),
    fun hnil => absurd hnil (List.cons_ne_nil _ _), Reading.mark_mark_self ..⟩

theorem routed_sequence {head : Unfolding P} {unfoldings : List (Unfolding P)} {tree : Tree P}
    {trees : List (Tree P)}
    (hhead : scope.Routed languageWeight transitions opened floors
      (if unfoldings.isEmpty then floor else floors.length) head tree)
    (hitems : scope.RoutedItems languageWeight transitions opened floors floor unfoldings trees) :
    scope.Routed languageWeight transitions opened floors floor (.sequence (head :: unfoldings))
      (.sequence (tree :: trees)) := by
  intro doors tags next hnested hwired
  rw [Unfolding.wire] at hwired ⊢
  obtain ⟨hwiredHead, hwiredItems⟩ := List.append_subset.mp hwired
  exact route_item hhead hitems hnested hwiredHead hwiredItems

theorem routed_null :
    scope.Routed languageWeight transitions opened floors floor (.sequence []) (.sequence []) := by
  intro doors tags next hnested hwired
  rw [Unfolding.wire] at hwired ⊢
  rw [reading_nil]
  exact Route.epsilon (hwired (List.mem_singleton_self _))

/-- Every branch of a choice is wired between its ends. -/
theorem exists_wired_of_mem {probability : P} {body : Unfolding P}
    {branches : List (P × Unfolding P)} {first last next : Nat}
    (hmem : (probability, body) ∈ branches)
    (hwired : (Unfolding.wireBranches languageWeight doors tags first last next branches :
      Piece W).transitions ⊆ transitions) :
    ∃ start, (body.wire languageWeight doors tags start : Piece W).transitions ⊆ transitions ∧
      Unfolding.weighted tags first (body.wire languageWeight doors tags start : Piece W).first
        (Logarithm.scale languageWeight (Logarithm.ln probability)) ∈ transitions ∧
      Unfolding.epsilon tags (body.wire languageWeight doors tags start : Piece W).last last ∈
        transitions := by
  induction branches generalizing next with
  | nil => cases hmem
  | cons branch branches ih =>
      rw [Unfolding.wireBranches] at hwired
      obtain ⟨hhead, hrest⟩ := List.append_subset.mp hwired
      obtain ⟨hin, hrest⟩ := List.cons_subset.mp hrest
      obtain ⟨hout, hrest⟩ := List.cons_subset.mp hrest
      rcases List.mem_cons.mp hmem with rfl | hmem
      · exact ⟨next, hhead, hin, hout⟩
      · exact ih hmem hrest

theorem routed_choice {probability : P} {body : Unfolding P} {branches : List (P × Unfolding P)}
    {tree : Tree P} (hmem : (probability, body) ∈ branches)
    (hbody : scope.Routed languageWeight transitions opened floors floor body tree) :
    scope.Routed languageWeight transitions opened floors floor (.choice branches)
      (.branch probability tree) := by
  intro doors tags next hnested hwired
  rw [Unfolding.wire] at hwired ⊢
  obtain ⟨start, hwiredBody, hin, hout⟩ := exists_wired_of_mem hmem hwired
  have hroute := Route.step hin (Route.leave (hbody hnested hwiredBody) hout)
  rwa [reading_weighted_append, Reading.append_mark, Reading.mark_mark_self,
    ← reading_branch] at hroute

/-! ## Repetitions -/

/-- An iteration may be put in front of the other ones of a repetition. -/
theorem route_iteration {higher first middle last bypass : Nat} {tree : Tree P}
    {trees : List (Tree P)} (hstep : Unfolding.epsilon tags last first ∈ transitions)
    (hfirst : Route transitions doors higher first middle
      ((tree.reading languageWeight).mark tags))
    (hrest : Route transitions doors floor middle bypass
      (((Tree.sequence trees).reading languageWeight).mark tags))
    (hle : floor ≤ higher) (hexit : doors.length ≤ higher ∨ trees = []) :
    Route transitions doors floor last bypass
      (((Tree.sequence (tree :: trees)).reading languageWeight).mark tags) := by
  have hboth : ((tree.reading languageWeight).mark tags).append
      (((Tree.sequence trees).reading languageWeight).mark tags) =
      (((Tree.sequence (tree :: trees)).reading languageWeight).mark tags : Reading W) := by
    rw [Reading.append_mark, Reading.mark_append, Reading.mark_mark_self, reading_cons]
  have hjoined := hfirst.trans hrest hle (hexit.imp_right ?_)
  · rw [hboth] at hjoined
    exact Route.enter hstep hjoined
  · rintro rfl
    rw [reading_nil, Reading.append_mark, Reading.append_silent_zero, Reading.mark_mark_self]

theorem route_no_iteration {last bypass : Nat}
    (hstep : Unfolding.epsilon tags last bypass ∈ transitions) :
    Route transitions doors floor last bypass
      (((Tree.sequence [] : Tree P).reading languageWeight).mark tags) := by
  rw [reading_nil]
  exact Route.epsilon hstep

/-- Trees have routes through copies in a row; only at the last is the end of all near. -/
def RoutedCopies (scope : Scope P) (languageWeight : P) (transitions : List (Transition W))
    (opened : List OpenRule) (floors : List Nat) (floor : Nat) (trees : List (Tree P)) :
    List (Unfolding P) → Prop
  | [] => True
  | item :: items =>
      (∀ tree ∈ trees, scope.Routed languageWeight transitions opened floors
        (if items.isEmpty then floor else floors.length) item tree) ∧
      RoutedCopies scope languageWeight transitions opened floors floor trees items

/-- Iterations that may be read one copy each have a route through the copies. -/
theorem route_copies {all trees : List (Tree P)} {items : List (Unfolding P)}
    {required last bypass next : Nat} (hsubset : trees ⊆ all)
    (hcopies : scope.RoutedCopies languageWeight transitions opened floors floor all items)
    (hrequired : required ≤ trees.length) (hlength : trees.length ≤ items.length)
    (hnested : scope.Nested languageWeight transitions opened doors floors floor tags)
    (hwired : (Unfolding.wireCopies languageWeight doors tags bypass required last next items :
      Piece W).transitions ⊆ transitions)
    (hout : Unfolding.epsilon tags (Unfolding.wireCopies languageWeight doors tags bypass required
      last next items : Piece W).last bypass ∈ transitions) :
    Route transitions doors floor last bypass
      (((Tree.sequence trees).reading languageWeight).mark tags) := by
  induction items generalizing trees required last next with
  | nil =>
      obtain rfl : trees = [] := List.eq_nil_of_length_eq_zero (Nat.le_zero.mp hlength)
      rw [Unfolding.wireCopies] at hout
      exact route_no_iteration hout
  | cons item items ih =>
      obtain ⟨hitem, hitems⟩ := hcopies
      rw [Unfolding.wireCopies] at hwired hout
      obtain ⟨hhead, hrest⟩ := List.append_subset.mp hwired
      obtain ⟨hstep, hrest⟩ := List.cons_subset.mp hrest
      obtain ⟨hskip, htail⟩ := List.append_subset.mp hrest
      cases trees with
      | nil =>
          rw [if_pos (Nat.le_zero.mp hrequired)] at hskip
          exact route_no_iteration (hskip (List.mem_singleton_self _))
      | cons tree trees =>
          obtain ⟨hmem, hsubset⟩ := List.cons_subset.mp hsubset
          have hothers := ih hsubset hitems (by simp at hrequired; omega)
            (Nat.le_of_succ_le_succ hlength) htail hout
          have htree := hitem tree hmem
          cases items with
          | nil =>
              have hnil : trees = [] :=
                List.eq_nil_of_length_eq_zero (Nat.le_zero.mp (Nat.le_of_succ_le_succ hlength))
              exact route_iteration hstep (htree hnested hhead) hothers (le_refl _) (.inr hnil)
          | cons other items =>
              have hdoors := hnested.length_floors
              exact route_iteration hstep (htree hnested.aside hhead) hothers
                (hdoors.symm ▸ hnested.floor_le) (.inl hdoors.ge)

theorem routed_copies {trees : List (Tree P)} {items : List (Unfolding P)} {least : Nat}
    (hcopies : scope.RoutedCopies languageWeight transitions opened floors floor trees items)
    (hleast : least ≤ trees.length) (hlength : trees.length ≤ items.length) :
    scope.Routed languageWeight transitions opened floors floor (.copies least items)
      (.iterations least trees) := by
  intro doors tags next hnested hwired
  rw [Unfolding.wire] at hwired ⊢
  rw [reading_iterations]
  obtain ⟨hinner, hout⟩ := List.append_subset.mp hwired
  exact route_copies (List.Subset.refl trees) hcopies hleast hlength hnested hinner
    (hout (List.mem_singleton_self _))

theorem routedCopies_of_covered {items : List (Unfolding P)} {trees : List (Tree P)}
    (hitems : ∀ item ∈ items, ∀ lower, item.Covered floors lower → ∀ tree ∈ trees,
      scope.Routed languageWeight transitions opened floors lower item tree)
    (hcovered : Unfolding.CoveredItems floors floor items) :
    scope.RoutedCopies languageWeight transitions opened floors floor trees items := by
  induction items with
  | nil => trivial
  | cons item items ih =>
      obtain ⟨hitem, hitems⟩ := List.forall_mem_cons.mp hitems
      exact ⟨hitem _ hcovered.1, ih hitems hcovered.2⟩

/-- Iterations may be read over and over where a copy may follow itself. -/
theorem route_again {first last bypass : Nat} {trees : List (Tree P)}
    (hbody : ∀ tree ∈ trees, Route transitions doors doors.length first last
      ((tree.reading languageWeight).mark tags))
    (hback : Unfolding.epsilon tags last first ∈ transitions)
    (hout : Unfolding.epsilon tags last bypass ∈ transitions) (hle : floor ≤ doors.length) :
    Route transitions doors floor last bypass
      (((Tree.sequence trees).reading languageWeight).mark tags) := by
  induction trees with
  | nil => exact route_no_iteration hout
  | cons tree trees ih =>
      obtain ⟨htree, htrees⟩ := List.forall_mem_cons.mp hbody
      exact route_iteration hback htree (ih htrees) hle (.inl (le_refl _))

/-- Any number of iterations has a route through fewer copies of which the last follows itself. -/
theorem route_loop {body : Nat → Piece W} {trees : List (Tree P)} {last bypass next : Nat}
    (count : Nat) (hlength : count < trees.length)
    (hbody : ∀ next, (body next).transitions ⊆ transitions → ∀ tree ∈ trees,
      Route transitions doors doors.length (body next).first (body next).last
        ((tree.reading languageWeight).mark tags))
    (hwired : (Unfolding.wireLoop (P := P) body tags (count + 1) last next).transitions ⊆
      transitions)
    (hout : Unfolding.epsilon tags
      (Unfolding.wireLoop (P := P) body tags (count + 1) last next).last bypass ∈ transitions)
    (hle : floor ≤ doors.length) :
    Route transitions doors floor last bypass
      (((Tree.sequence trees).reading languageWeight).mark tags) := by
  induction count generalizing trees last next with
  | zero =>
      obtain ⟨tree, trees, rfl⟩ := List.exists_cons_of_length_pos hlength
      rw [Unfolding.wireLoop, Unfolding.wireLoop] at hwired hout
      obtain ⟨hhead, hrest⟩ := List.append_subset.mp hwired
      obtain ⟨hstep, hrest⟩ := List.cons_subset.mp hrest
      obtain ⟨htree, htrees⟩ := List.forall_mem_cons.mp (hbody next hhead)
      refine route_iteration hstep htree (route_again htrees (hrest ?_) hout hle) hle
        (.inl (le_refl _))
      exact List.mem_cons_self ..
  | succ count ih =>
      obtain ⟨tree, trees, rfl⟩ := List.exists_cons_of_length_pos (Nat.zero_lt_of_lt hlength)
      rw [Unfolding.wireLoop] at hwired hout
      obtain ⟨hhead, hrest⟩ := List.append_subset.mp hwired
      obtain ⟨hstep, hrest⟩ := List.cons_subset.mp hrest
      rw [if_neg (Nat.succ_ne_zero count)] at hrest
      have htree := hbody next hhead tree (List.mem_cons_self ..)
      have htrees := ih (Nat.lt_of_succ_lt_succ hlength)
        (fun start hstart other hmem => hbody start hstart other (List.mem_cons_of_mem _ hmem))
        hrest hout
      exact route_iteration hstep htree htrees hle (.inl (le_refl _))

theorem routed_loop {unfolding : Unfolding P} {trees : List (Tree P)} {least : Nat}
    (hbody : ∀ tree ∈ trees,
      scope.Routed languageWeight transitions opened floors floors.length unfolding tree)
    (hleast : least ≤ trees.length) :
    scope.Routed languageWeight transitions opened floors floor (.loop least unfolding)
      (.iterations least trees) := by
  intro doors tags next hnested hwired
  have hdoors := hnested.length_floors
  rw [Unfolding.wire] at hwired ⊢
  rw [reading_iterations]
  obtain ⟨hinner, hrest⟩ := List.append_subset.mp hwired
  obtain ⟨hout, hskip⟩ := List.cons_subset.mp hrest
  cases trees with
  | nil =>
      rw [if_pos (Nat.le_zero.mp hleast)] at hskip
      exact route_no_iteration (hskip (List.mem_singleton_self _))
  | cons tree trees =>
      obtain ⟨count, hcount⟩ : ∃ count, max least 1 = count + 1 := ⟨max least 1 - 1, by omega⟩
      rw [hcount] at hinner hout
      refine route_loop count (by simp at hleast ⊢; omega) (fun start hstart other hmem => ?_)
        hinner hout hnested.floor_le
      rw [← hdoors]
      exact hbody other hmem hnested.aside hstart

/-! ## Expansions -/

section Unfold

variable {follow : List OpenRule → Nat → Reference → Unfolding P} {near : Nat}

/-- A repetition with a greatest number has routes for all numbers of iterations within. -/
theorem routed_copiesOf {early last : Unfolding P} {trees : List (Tree P)} {least most : Nat}
    (hearly : ∀ lower, early.Covered floors lower → ∀ tree ∈ trees,
      scope.Routed languageWeight transitions opened floors lower early tree)
    (hlast : ∀ lower, last.Covered floors lower → ∀ tree ∈ trees,
      scope.Routed languageWeight transitions opened floors lower last tree)
    (hcovered : (Unfolding.copies least
      (Unfolding.copiesOf most (fun _ => early) (fun _ => last))).Covered floors floor)
    (hleast : least ≤ trees.length) (hmost : trees.length ≤ most) :
    scope.Routed languageWeight transitions opened floors floor
      (.copies least (Unfolding.copiesOf most (fun _ => early) (fun _ => last)))
      (.iterations least trees) := by
  refine routed_copies (routedCopies_of_covered (fun copy hcopy => ?_) hcovered) hleast ?_
  · rcases Unfolding.eq_or_eq_of_mem_copiesOf hcopy with rfl | rfl
    · exact hearly
    · exact hlast
  · cases most with
    | zero => exact hmost
    | succ count =>
        have hfaultless := Unfolding.faultless_copies_iff.mp hcovered.faultless
        rw [Unfolding.copiesOf_succ_of_faultless hfaultless]
        simpa using hmost

theorem routedItems_unfold {items : List (Expansion P)} {trees : List (Tree P)}
    (hlength : items.length = trees.length)
    (hitems : ∀ item tree, (item, tree) ∈ items.zip trees → ∀ near lower,
      (item.unfold follow opened near).Covered floors lower →
      scope.Routed languageWeight transitions opened floors lower
        (item.unfold follow opened near) tree)
    (hcovered : Unfolding.CoveredItems floors floor
      (Expansion.unfoldItems follow opened near items)) :
    scope.RoutedItems languageWeight transitions opened floors floor
      (Expansion.unfoldItems follow opened near items) trees := by
  induction items generalizing trees with
  | nil =>
      obtain rfl : trees = [] := List.eq_nil_of_length_eq_zero hlength.symm
      exact routedItems_nil
  | cons item items ih =>
      obtain ⟨tree, trees, rfl⟩ := List.exists_cons_of_length_eq_add_one hlength.symm
      rw [Expansion.unfoldItems] at hcovered ⊢
      exact routedItems_cons (hitems item tree (List.mem_cons_self ..) _ _ hcovered.1)
        (ih (Nat.succ.inj hlength) (fun other otherTree hmem =>
          hitems other otherTree (List.mem_cons_of_mem _ hmem)) hcovered.2)

theorem routed_sequence_unfold {items : List (Expansion P)} {trees : List (Tree P)}
    (hlength : items.length = trees.length)
    (hitems : ∀ item tree, (item, tree) ∈ items.zip trees → ∀ near lower,
      (item.unfold follow opened near).Covered floors lower →
      scope.Routed languageWeight transitions opened floors lower
        (item.unfold follow opened near) tree)
    (hcovered : Unfolding.CoveredItems floors floor
      (Expansion.unfoldItems follow opened near items)) :
    scope.Routed languageWeight transitions opened floors floor
      (.sequence (Expansion.unfoldItems follow opened near items)) (.sequence trees) := by
  cases items with
  | nil =>
      obtain rfl : trees = [] := List.eq_nil_of_length_eq_zero hlength.symm
      exact routed_null
  | cons item items =>
      obtain ⟨tree, trees, rfl⟩ := List.exists_cons_of_length_eq_add_one hlength.symm
      rw [Expansion.unfoldItems] at hcovered ⊢
      exact routed_sequence (hitems item tree (List.mem_cons_self ..) _ _ hcovered.1)
        (routedItems_unfold (Nat.succ.inj hlength) (fun other otherTree hmem =>
          hitems other otherTree (List.mem_cons_of_mem _ hmem)) hcovered.2)

end Unfold

/-- Every tree of an expansion has a route through the covered unfolding of it. -/
theorem routed_unfold {expansion : Expansion P} {tree : Tree P}
    (hderives : Derives scope expansion tree) (room : Nat) (opened : List OpenRule) (near : Nat)
    (floors : List Nat) (floor : Nat)
    (hcovered : (expansion.unfold (scope.unfoldReference room) opened near).Covered floors
      floor) :
    scope.Routed languageWeight transitions opened floors floor
      (expansion.unfold (scope.unfoldReference room) opened near) tree := by
  induction hderives generalizing room opened near floors floor with
  | literal text =>
      rw [Expansion.unfold]
      exact routed_word text
  | reference htarget hrule _ ih =>
      rw [Expansion.unfold] at hcovered ⊢
      exact routed_reference hrule ih htarget hcovered
  | sequence hlength _ ih =>
      rw [Expansion.unfold] at hcovered ⊢
      exact routed_sequence_unfold hlength
        (fun item tree hmem near lower => ih item tree hmem room opened near floors lower) hcovered
  | @alternation branches branch tree hmem hpositive _ ih =>
      rw [Expansion.unfold] at hcovered ⊢
      have hbranch : (branch.probability,
          branch.body.unfold (scope.unfoldReference room) opened near) ∈
          Expansion.unfoldBranches (scope.unfoldReference room) opened near branches :=
        Expansion.mem_unfoldBranches_iff.mpr ⟨branch, hmem, hpositive, rfl⟩
      exact routed_choice hbranch
        (ih room opened near floors floor (Unfolding.coveredBranches_iff.mp hcovered _ hbranch))
  | @repetition body least most? trees hleast hmost _ ih =>
      cases most? with
      | some most =>
          rw [Expansion.unfold] at hcovered ⊢
          exact routed_copiesOf
            (fun lower hcopy tree hmem => ih tree hmem room opened _ floors lower hcopy)
            (fun lower hcopy tree hmem => ih tree hmem room opened _ floors lower hcopy) hcovered
            hleast ((hmost most rfl).trans (le_max_left ..))
      | none =>
          rw [Expansion.unfold] at hcovered ⊢
          exact routed_loop (fun tree hmem => ih tree hmem room opened _ floors _ hcovered) hleast
  | optional _ ih =>
      rw [Expansion.unfold_optional] at hcovered ⊢
      exact ih room opened near floors floor hcovered
  | tagged _ ih =>
      rw [Expansion.unfold] at hcovered ⊢
      exact routed_tagged _ (ih room opened near floors floor hcovered)

end Scope

end SpeechGrammar
