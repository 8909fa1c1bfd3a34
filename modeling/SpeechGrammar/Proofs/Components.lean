import SpeechGrammar.Proofs.Reachability
import SpeechGrammar.Graph

/-!
# The search for components finds the nodes on cycles

All through the search, nodes on the stack lead to those above them, and to an
open node at or below them, where a node is open while its visit lasts.  When a
visit has found no number on the stack below that of its own node, nothing
above leads below, so that all nodes from there on lead to each other and make
up a component.  From a complete component nothing leads back to the stack.
-/

namespace SpeechGrammar.Graph

variable {Node : Type} [DecidableEq Node] {successors : Node → List Node}

/-- A path of at least one step leads from a node back to it. -/
def OnCycle (successors : Node → List Node) (node : Node) : Prop :=
  Relation.TransGen (fun first second => second ∈ successors first) node node

omit [DecidableEq Node] in
theorem onCycle_of_leads {node other : Node} (hne : other ≠ node)
    (hto : Leads successors node other) (hback : Leads successors other node) :
    OnCycle successors node := by
  rcases Relation.reflTransGen_iff_eq_or_transGen.mp hto with heq | hcycle
  · exact absurd heq hne
  · exact hcycle.trans_left hback

namespace Survey

def IsComplete (survey : Survey Node) (node : Node) : Prop :=
  node ∈ survey.met ∧ node ∉ survey.stack

/-- What holds all through the search, while the visits of some nodes last. -/
structure Sound (successors : Node → List Node) (opened : List Node) (survey : Survey Node) :
    Prop where
  stack_met : survey.stack ⊆ survey.met
  ordered : survey.stack.Pairwise fun later earlier => survey.number earlier < survey.number later
  opened_stack : opened ⊆ survey.stack
  visited : ∀ node ∈ survey.met, node ∉ opened → successors node ⊆ survey.met
  closed : ∀ node, survey.IsComplete node → ∀ next ∈ successors node, survey.IsComplete next
  leads : ∀ first ∈ survey.stack, ∀ second ∈ survey.stack,
    survey.number first ≤ survey.number second → Leads successors first second
  returns : ∀ node ∈ survey.stack, ∃ entry ∈ opened,
    survey.number entry ≤ survey.number node ∧ Leads successors node entry
  mem_cyclic_iff : ∀ node, node ∈ survey.cyclic ↔
    survey.IsComplete node ∧ OnCycle successors node

theorem Sound.isComplete_of_leads {opened : List Node} {survey : Survey Node} {first last : Node}
    (hsound : survey.Sound successors opened) (hfirst : survey.IsComplete first)
    (hleads : Leads successors first last) : survey.IsComplete last := by
  induction hleads with
  | refl => exact hfirst
  | tail _ hstep ih => exact hsound.closed _ ih _ hstep

/-- A survey goes on from another one. -/
structure Extends (before after : Survey Node) : Prop where
  met : before.met <+: after.met
  stack : before.stack <:+ after.stack
  fresh : ∀ node ∈ after.stack, node ∈ before.met → node ∈ before.stack

variable {opened : List Node} {survey before middle after : Survey Node} {node next : Node}
  {least : Nat}

omit [DecidableEq Node] in
theorem Extends.refl (survey : Survey Node) : survey.Extends survey :=
  ⟨List.prefix_rfl, List.suffix_rfl, fun _ hnode _ => hnode⟩

omit [DecidableEq Node] in
theorem Extends.trans (hfirst : before.Extends middle) (hsecond : middle.Extends after) :
    before.Extends after where
  met := hfirst.met.trans hsecond.met
  stack := hfirst.stack.trans hsecond.stack
  fresh node hnode hmet :=
    hfirst.fresh node (hsecond.fresh node hnode (hfirst.met.subset hmet)) hmet

theorem Extends.number_eq (hextends : before.Extends after) (hnode : node ∈ before.met) :
    after.number node = before.number node := by
  obtain ⟨more, hmore⟩ := hextends.met
  rw [number, number, ← hmore, List.idxOf_append_of_mem hnode]

theorem number_lt (hnode : node ∈ survey.met) : survey.number node < survey.met.length :=
  List.idxOf_lt_length_of_mem hnode

/-! ## Meeting a node -/

omit [DecidableEq Node] in
theorem extends_enter (hnew : node ∉ survey.met) : survey.Extends (survey.enter node) where
  met := List.prefix_append ..
  stack := List.suffix_cons ..
  fresh other hother hmet := by
    rcases List.mem_cons.mp hother with rfl | hother
    · exact absurd hmet hnew
    · exact hother

theorem number_enter (hnew : node ∉ survey.met) :
    (survey.enter node).number node = survey.met.length := by
  rw [number, enter, List.idxOf_append_of_notMem hnew, List.idxOf_cons_self, Nat.add_zero]

omit [DecidableEq Node] in
theorem isComplete_enter_iff (hnew : node ∉ survey.met) {other : Node} :
    (survey.enter node).IsComplete other ↔ survey.IsComplete other := by
  simp only [IsComplete, enter, List.mem_append, List.mem_cons, List.not_mem_nil, or_false, not_or]
  constructor
  · rintro ⟨hmet | hsame, hne, hstack⟩
    · exact ⟨hmet, hstack⟩
    · exact absurd hsame hne
  · rintro ⟨hmet, hstack⟩
    exact ⟨.inl hmet, fun heq => hnew (heq ▸ hmet), hstack⟩

/-- Meeting a node that all open nodes lead to, and opening it, keeps what holds of the search. -/
theorem Sound.enter (hsound : survey.Sound successors opened) (hnew : node ∉ survey.met)
    (hleads : ∀ entry ∈ opened, Leads successors entry node) :
    (survey.enter node).Sound successors (node :: opened) := by
  have hextends := extends_enter hnew
  have hnumber : ∀ other ∈ survey.stack,
      (survey.enter node).number other = survey.number other :=
    fun other hother => hextends.number_eq (hsound.stack_met hother)
  have hlast := number_enter hnew
  have hless : ∀ other ∈ survey.stack,
      (survey.enter node).number other < (survey.enter node).number node := by
    intro other hother
    rw [hnumber other hother, hlast]
    exact number_lt (hsound.stack_met hother)
  constructor
  case stack_met =>
    refine List.cons_subset.mpr ⟨List.mem_append_right _ (List.mem_singleton_self _), ?_⟩
    exact List.Subset.trans hsound.stack_met (List.subset_append_left ..)
  case ordered =>
    refine List.pairwise_cons.mpr ⟨hless, hsound.ordered.imp_of_mem fun hfirst hsecond hlt => ?_⟩
    rwa [hnumber _ hfirst, hnumber _ hsecond]
  case opened_stack => exact List.cons_subset_cons _ hsound.opened_stack
  case visited =>
    intro other hother hclosed
    rw [List.mem_cons, not_or] at hclosed
    rcases List.mem_append.mp hother with hother | hother
    · exact List.Subset.trans (hsound.visited other hother hclosed.2) (List.subset_append_left ..)
    · exact absurd (List.mem_singleton.mp hother) hclosed.1
  case closed =>
    simp only [isComplete_enter_iff hnew]
    exact hsound.closed
  case leads =>
    intro first hfirst second hsecond hle
    rcases List.mem_cons.mp hfirst with rfl | hfirstOld
    · rcases List.mem_cons.mp hsecond with rfl | hsecondOld
      · exact .refl
      · exact absurd hle (Nat.not_le.mpr (hless second hsecondOld))
    · rcases List.mem_cons.mp hsecond with rfl | hsecondOld
      · obtain ⟨entry, hentry, -, hback⟩ := hsound.returns first hfirstOld
        exact hback.trans (hleads entry hentry)
      · rw [hnumber first hfirstOld, hnumber second hsecondOld] at hle
        exact hsound.leads first hfirstOld second hsecondOld hle
  case returns =>
    intro other hother
    rcases List.mem_cons.mp hother with rfl | hother
    · exact ⟨other, List.mem_cons_self .., Nat.le_refl _, .refl⟩
    · obtain ⟨entry, hentry, hle, hback⟩ := hsound.returns other hother
      refine ⟨entry, List.mem_cons_of_mem _ hentry, ?_, hback⟩
      rwa [hnumber entry (hsound.opened_stack hentry), hnumber other hother]
  case mem_cyclic_iff =>
    simp only [isComplete_enter_iff hnew]
    exact hsound.mem_cyclic_iff

/-! ## What a visit achieves -/

/-- What the visit of a new node keeps, and what the number says that it finds. -/
structure Visits (successors : Node → List Node) (opened : List Node) (before : Survey Node)
    (node : Node) (after : Survey Node) (least : Nat) : Prop where
  sound : after.Sound successors opened
  extends_before : before.Extends after
  mem_met : node ∈ after.met
  number_eq : after.number node = before.met.length
  least_le : least ≤ before.met.length
  refers : least < before.met.length →
    ∃ other ∈ after.stack, after.number other = least ∧ Leads successors node other
  least_le_of_refers : ∀ other ∈ after.stack, other ∉ before.stack →
    ∀ next ∈ successors other, next ∈ before.stack → least ≤ after.number next

/-- What holds when some of the successors of an open node have been followed. -/
structure Follows (successors : Node → List Node) (opened : List Node) (before : Survey Node)
    (node : Node) (followed : List Node) (after : Survey Node) (least : Nat) : Prop where
  sound : after.Sound successors (node :: opened)
  extends_enter : (before.enter node).Extends after
  least_le : least ≤ before.met.length
  refers : ∃ other ∈ after.stack, after.number other = least ∧ Leads successors node other
  followed_met : followed ⊆ after.met
  least_le_of_followed : ∀ next ∈ followed, next ∈ after.stack → least ≤ after.number next
  least_le_of_refers : ∀ other ∈ after.stack, other ∉ (before.enter node).stack →
    ∀ next ∈ successors other, next ∈ before.stack → least ≤ after.number next

theorem follows_enter (hsound : survey.Sound successors opened) (hnew : node ∉ survey.met)
    (hleads : ∀ entry ∈ opened, Leads successors entry node) :
    Follows successors opened survey node [] (survey.enter node) survey.met.length where
  sound := hsound.enter hnew hleads
  extends_enter := .refl _
  least_le := Nat.le_refl _
  refers := ⟨node, List.mem_cons_self .., number_enter hnew, .refl⟩
  followed_met := List.nil_subset _
  least_le_of_followed := fun _ hnext => nomatch hnext
  least_le_of_refers := fun _ hother hnot => absurd hother hnot

section Follow

variable {followed : List Node} {below : Nat}

theorem Follows.met (hfollows : Follows successors opened before node followed after least)
    (hnext : next ∈ successors node) (hmet : next ∈ after.met) :
    Follows successors opened before node (followed ++ [next]) after
      (if next ∈ after.stack then min least (after.number next) else least) := by
  have hle : (if next ∈ after.stack then min least (after.number next) else least) ≤ least := by
    split
    · exact Nat.min_le_left ..
    · exact Nat.le_refl _
  constructor
  case sound => exact hfollows.sound
  case extends_enter => exact hfollows.extends_enter
  case least_le => exact Nat.le_trans hle hfollows.least_le
  case refers =>
    split
    · rename_i hstack
      rcases Nat.le_total least (after.number next) with hless | hless
      · rw [Nat.min_eq_left hless]
        exact hfollows.refers
      · rw [Nat.min_eq_right hless]
        exact ⟨next, hstack, rfl, .single hnext⟩
    · exact hfollows.refers
  case followed_met =>
    exact List.append_subset.mpr ⟨hfollows.followed_met, by simpa using hmet⟩
  case least_le_of_followed =>
    intro other hother hstack
    rcases List.mem_append.mp hother with hother | hother
    · exact Nat.le_trans hle (hfollows.least_le_of_followed other hother hstack)
    · obtain rfl := List.mem_singleton.mp hother
      rw [if_pos hstack]
      exact Nat.min_le_right ..
  case least_le_of_refers =>
    exact fun other hother hnot inner hinner hstack =>
      Nat.le_trans hle (hfollows.least_le_of_refers other hother hnot inner hinner hstack)

/-- A successor that is new is visited, and what it refers back to is referred back to. -/
theorem Follows.visit (hfollows : Follows successors opened before node followed middle least)
    (hnext : next ∈ successors node)
    (hvisits : Visits successors (node :: opened) middle next after below) :
    Follows successors opened before node (followed ++ [next]) after (min least below) := by
  have hextends := hvisits.extends_before
  have hnumber : ∀ other ∈ middle.met, after.number other = middle.number other :=
    fun other hother => hextends.number_eq hother
  have hmiddle : ∀ other ∈ before.stack, other ∈ middle.stack := fun other hother =>
    hfollows.extends_enter.stack.subset (List.mem_cons_of_mem _ hother)
  have hlength : before.met.length < middle.met.length := by
    have hle := hfollows.extends_enter.met.length_le
    rw [Survey.enter, List.length_append, List.length_singleton] at hle
    exact hle
  constructor
  case sound => exact hvisits.sound
  case extends_enter => exact hfollows.extends_enter.trans hextends
  case least_le => exact Nat.le_trans (Nat.min_le_left ..) hfollows.least_le
  case refers =>
    rcases Nat.le_total least below with hless | hless
    · rw [Nat.min_eq_left hless]
      obtain ⟨other, hother, heq, hleads⟩ := hfollows.refers
      refine ⟨other, hextends.stack.subset hother, ?_, hleads⟩
      rw [hnumber other (hfollows.sound.stack_met hother), heq]
    · rw [Nat.min_eq_right hless]
      have hbelow := hfollows.least_le
      obtain ⟨other, hother, heq, hleads⟩ := hvisits.refers (by omega)
      exact ⟨other, hother, heq, .head hnext hleads⟩
  case followed_met =>
    refine List.append_subset.mpr ⟨?_, by simpa using hvisits.mem_met⟩
    exact List.Subset.trans hfollows.followed_met hextends.met.subset
  case least_le_of_followed =>
    intro other hother hstackAfter
    rcases List.mem_append.mp hother with hother | hother
    · have hmet := hfollows.followed_met hother
      have hold := hextends.fresh other hstackAfter hmet
      rw [hnumber other hmet]
      exact Nat.le_trans (Nat.min_le_left ..)
        (hfollows.least_le_of_followed other hother hold)
    · obtain rfl := List.mem_singleton.mp hother
      rw [hvisits.number_eq]
      exact Nat.le_trans (Nat.min_le_right ..) hvisits.least_le
  case least_le_of_refers =>
    intro other hother hnot inner hinner hinnerStack
    by_cases hold : other ∈ middle.stack
    · rw [hnumber inner (hfollows.sound.stack_met (hmiddle inner hinnerStack))]
      exact Nat.le_trans (Nat.min_le_left ..)
        (hfollows.least_le_of_refers other hold hnot inner hinner hinnerStack)
    · exact Nat.le_trans (Nat.min_le_right ..)
        (hvisits.least_le_of_refers other hother hold inner hinner (hmiddle inner hinnerStack))

end Follow

/-! ## Ending a visit -/

section Finish

variable (hfollows : Follows successors opened before node (successors node) after least)

include hfollows

theorem Follows.number_eq (hnew : node ∉ before.met) : after.number node = before.met.length := by
  rw [hfollows.extends_enter.number_eq (List.mem_append_right _ (List.mem_singleton_self _)),
    number_enter hnew]

theorem Follows.number_of_mem (hmem : next ∈ before.met) :
    after.number next = before.number next := by
  rw [hfollows.extends_enter.number_eq (List.mem_append_left _ hmem), number, number, enter,
    List.idxOf_append_of_mem hmem]

theorem Follows.mem_stack : node ∈ after.stack :=
  hfollows.extends_enter.stack.subset (List.mem_cons_self ..)

theorem Follows.successors_subset {other : Node} (hother : other ∈ after.met)
    (hclosed : other ∉ opened) : successors other ⊆ after.met := by
  by_cases hsame : other = node
  · exact hsame ▸ hfollows.followed_met
  · exact hfollows.sound.visited other hother (by simp [hsame, hclosed])

/-- What the nodes that were met since refer back to is not below the least number. -/
theorem Follows.least_le_of_stack {other : Node} (hother : other ∈ after.stack)
    (hnot : other ∉ before.stack) (hnext : next ∈ successors other)
    (hstack : next ∈ before.stack) : least ≤ after.number next := by
  have hnextStack : next ∈ after.stack :=
    hfollows.extends_enter.stack.subset (List.mem_cons_of_mem _ hstack)
  by_cases hsame : other = node
  · subst hsame
    exact hfollows.least_le_of_followed next hnext hnextStack
  · refine hfollows.least_le_of_refers other hother ?_ next hnext hstack
    simp [enter, hsame, hnot]

/-- Where a visit has referred back below its node, the node stays on the stack. -/
theorem Follows.visits_of_lt (hnew : node ∉ before.met) (hless : least < before.met.length) :
    Visits successors opened before node after least where
  extends_before := (Survey.extends_enter hnew).trans hfollows.extends_enter
  mem_met := hfollows.sound.stack_met hfollows.mem_stack
  number_eq := hfollows.number_eq hnew
  least_le := hfollows.least_le
  refers := fun _ => hfollows.refers
  least_le_of_refers := fun _ hother hnot _ hnext hstack =>
    hfollows.least_le_of_stack hother hnot hnext hstack
  sound := by
    refine { hfollows.sound with
      opened_stack := List.Subset.trans (List.subset_cons_self ..) hfollows.sound.opened_stack
      visited := fun _ hother hclosed => hfollows.successors_subset hother hclosed
      returns := ?_ }
    -- Whatever returns to the node returns to what the node refers back to, which is lower.
    obtain ⟨lower, hlower, hnumber, hnode⟩ := hfollows.refers
    have hlowerLess : after.number lower < after.number node := by
      rw [hnumber, hfollows.number_eq hnew]
      exact hless
    have hlowerReturns : ∃ entry ∈ opened, after.number entry ≤ after.number lower ∧
        Leads successors lower entry := by
      obtain ⟨entry, hentry, hle, hback⟩ := hfollows.sound.returns lower hlower
      rcases List.mem_cons.mp hentry with rfl | hentry
      · omega
      · exact ⟨entry, hentry, hle, hback⟩
    intro other hother
    obtain ⟨entry, hentry, hle, hback⟩ := hfollows.sound.returns other hother
    rcases List.mem_cons.mp hentry with rfl | hentry
    · obtain ⟨lowest, hlowest, hlowestLe, hlowestBack⟩ := hlowerReturns
      exact ⟨lowest, hlowest, by omega, (hback.trans hnode).trans hlowestBack⟩
    · exact ⟨entry, hentry, hle, hback⟩

omit hfollows in
/-- A component goes down to the node that its visit began with. -/
theorem complete_of_stack_eq {added rest : List Node}
    (hstack : survey.stack = added ++ node :: rest) (hnot : node ∉ added) :
    survey.complete successors node =
      { survey with
        stack := rest
        cyclic :=
          if 1 < (added ++ [node]).length ∨ node ∈ successors node
          then added ++ [node] ++ survey.cyclic else survey.cyclic } := by
  have hadded : ∀ other ∈ added, decide (other ≠ node) = true := fun other hother =>
    decide_eq_true fun heq => hnot (heq ▸ hother)
  have htake : survey.stack.takeWhile (· ≠ node) = added := by
    rw [hstack, List.takeWhile_append_of_pos hadded]
    simp
  have hdrop : survey.stack.dropWhile (· ≠ node) = node :: rest := by
    rw [hstack, List.dropWhile_append_of_pos hadded]
    simp
  rw [complete, htake, hdrop, List.tail_cons]

/-- What is on the stack from a node on was met since the visit of the node began. -/
theorem Follows.exists_added : ∃ added, after.stack = added ++ node :: before.stack ∧
    node ∉ added ∧ ∀ other ∈ added ++ [node], other ∉ before.stack := by
  obtain ⟨added, hadded⟩ := hfollows.extends_enter.stack
  have hordered := hfollows.sound.ordered
  rw [← hadded, List.pairwise_append] at hordered
  obtain ⟨-, hbelow, habove⟩ := hordered
  refine ⟨added, hadded.symm, fun hnode => ?_, fun other hother hstack => ?_⟩
  · exact Nat.lt_irrefl _ (habove node hnode node (List.mem_cons_self ..))
  · rcases List.mem_append.mp hother with hother | hother
    · exact Nat.lt_irrefl _ (habove other hother other (List.mem_cons_of_mem _ hstack))
    · obtain rfl := List.mem_singleton.mp hother
      exact Nat.lt_irrefl _ ((List.pairwise_cons.mp hbelow).1 other hstack)

section Complete

variable (hsound : before.Sound successors opened)
  (hleads : ∀ entry ∈ opened, Leads successors entry node) (hleast : least = before.met.length)
  {added : List Node} (hstack : after.stack = added ++ node :: before.stack)

omit [DecidableEq Node] hfollows in
include hstack in
theorem mem_stack_iff_of_stack_eq {other : Node} :
    other ∈ after.stack ↔ other ∈ added ++ [node] ∨ other ∈ before.stack := by
  rw [hstack, List.append_cons, List.mem_append]

include hleads hstack in
theorem Follows.leads_component {other : Node} (hother : other ∈ added ++ [node]) :
    Leads successors node other ∧ Leads successors other node := by
  have hotherStack := (mem_stack_iff_of_stack_eq hstack).mpr (.inl hother)
  constructor
  · rcases List.mem_append.mp hother with hother | hother
    · have hordered := hfollows.sound.ordered
      rw [hstack, List.pairwise_append] at hordered
      have hless := hordered.2.2 other hother node (List.mem_cons_self ..)
      exact hfollows.sound.leads node hfollows.mem_stack other hotherStack (Nat.le_of_lt hless)
    · exact List.mem_singleton.mp hother ▸ .refl
  · -- It returns to an open node, and whichever that is, it leads on to the node itself.
    obtain ⟨entry, hentry, -, hback⟩ := hfollows.sound.returns other hotherStack
    rcases List.mem_cons.mp hentry with rfl | hentry
    · exact hback
    · exact hback.trans (hleads entry hentry)

variable (hseparate : ∀ other ∈ added ++ [node], other ∉ before.stack)

include hsound hleast hstack hseparate in
/-- Where nothing refers back below a node, its component refers to complete components only. -/
theorem Follows.isComplete_successor {other : Node} (hother : other ∈ added ++ [node])
    (hnext : next ∈ successors other) : after.IsComplete next ∨ next ∈ added ++ [node] := by
  have hotherStack := (mem_stack_iff_of_stack_eq hstack).mpr (.inl hother)
  have hclosed : other ∉ opened := fun hopened =>
    hseparate other hother (hsound.opened_stack hopened)
  have hnot : next ∉ before.stack := by
    -- Nodes below were met before the node, but no number below its own has been found.
    intro hnextStack
    have hle := hfollows.least_le_of_stack hotherStack (hseparate other hother) hnext hnextStack
    have hless := number_lt (hsound.stack_met hnextStack)
    rw [hfollows.number_of_mem (hsound.stack_met hnextStack), hleast] at hle
    exact Nat.not_lt.mpr hle hless
  by_cases hcomponent : next ∈ added ++ [node]
  · exact .inr hcomponent
  · refine .inl ⟨?_, fun hnextStack => ?_⟩
    · exact hfollows.successors_subset (hfollows.sound.stack_met hotherStack) hclosed hnext
    · exact ((mem_stack_iff_of_stack_eq hstack).mp hnextStack).elim hcomponent hnot

include hsound hleads hleast hstack hseparate in
/-- A component of more than one node, or of one that refers to itself, is made up of cycles. -/
theorem Follows.onCycle_iff (hnot : node ∉ added) {other : Node}
    (hother : other ∈ added ++ [node]) :
    OnCycle successors other ↔ 1 < (added ++ [node]).length ∨ node ∈ successors node := by
  constructor
  · intro hcycle
    cases added with
    | cons first rest => exact .inl (by simp)
    | nil =>
        obtain rfl := List.mem_singleton.mp hother
        obtain ⟨next, hnext, hback⟩ := Relation.TransGen.head'_iff.mp hcycle
        rcases hfollows.isComplete_successor hsound hleast hstack hseparate hother hnext with
          hcomplete | hsame
        · exact absurd hfollows.mem_stack (hfollows.sound.isComplete_of_leads hcomplete hback).2
        · exact .inr (List.mem_singleton.mp hsame ▸ hnext)
  · intro hcomponent
    have hnode : OnCycle successors node := by
      rcases hcomponent with hlength | hself
      · cases added with
        | nil => exact absurd hlength (Nat.lt_irrefl 1)
        | cons first rest =>
            obtain ⟨hto, hback⟩ := hfollows.leads_component hleads hstack
              (List.mem_append_left _ (List.mem_cons_self ..))
            exact onCycle_of_leads (fun heq => hnot (heq ▸ List.mem_cons_self ..)) hto hback
      · exact .single hself
    by_cases hsame : node = other
    · exact hsame ▸ hnode
    · obtain ⟨hto, hback⟩ := hfollows.leads_component hleads hstack hother
      exact onCycle_of_leads hsame hback hto

variable (hnot : node ∉ added)

include hstack hnot hseparate in
/-- A component that is taken off the stack is complete, as are those that were before. -/
theorem Follows.isComplete_complete_iff {other : Node} :
    (after.complete successors node).IsComplete other ↔
      after.IsComplete other ∨ other ∈ added ++ [node] := by
  have hmem : other ∈ after.stack ↔ other ∈ added ++ [node] ∨ other ∈ before.stack :=
    mem_stack_iff_of_stack_eq hstack
  rw [complete_of_stack_eq hstack hnot]
  constructor
  · rintro ⟨hother, hold⟩
    by_cases hcomponent : other ∈ added ++ [node]
    · exact .inr hcomponent
    · exact .inl ⟨hother, fun hstacked => (hmem.mp hstacked).elim hcomponent hold⟩
  · rintro (⟨hother, hout⟩ | hcomponent)
    · exact ⟨hother, fun hold => hout (hmem.mpr (.inr hold))⟩
    · exact ⟨hfollows.sound.stack_met (hmem.mpr (.inl hcomponent)), hseparate other hcomponent⟩

include hsound hleads hleast hstack hseparate hnot in
theorem Follows.mem_cyclic_complete_iff {other : Node} :
    other ∈ (after.complete successors node).cyclic ↔
      (after.complete successors node).IsComplete other ∧ OnCycle successors other := by
  have hold := hfollows.sound.mem_cyclic_iff other
  rw [hfollows.isComplete_complete_iff hstack hseparate hnot, complete_of_stack_eq hstack hnot]
  dsimp only
  by_cases hother : other ∈ added ++ [node]
  · have hout : other ∉ after.cyclic := fun hcyclic =>
      (hold.mp hcyclic).1.2 ((mem_stack_iff_of_stack_eq hstack).mpr (.inl hother))
    have hcycle := hfollows.onCycle_iff hsound hleads hleast hstack hseparate hnot hother
    split
    · rename_i hcomponent
      simp only [List.mem_append, hother, true_or, or_true, true_and, true_iff]
      exact hcycle.mpr hcomponent
    · rename_i hcomponent
      simp only [hother, hout, or_true, true_and, false_iff]
      exact fun hback => hcomponent (hcycle.mp hback)
  · simp only [hother, or_false, ← hold]
    split
    · rw [List.mem_append, or_iff_right hother]
    · exact Iff.rfl

include hsound hleads hleast hstack hseparate hnot in
/-- Taking a complete component off the stack keeps what holds of the search. -/
theorem Follows.sound_complete : (after.complete successors node).Sound successors opened := by
  have hrest : (after.complete successors node).stack = before.stack := by
    rw [complete_of_stack_eq hstack hnot]
  have hmem : ∀ other ∈ before.stack, other ∈ after.stack := fun other hother =>
    (mem_stack_iff_of_stack_eq hstack).mpr (.inr hother)
  have hnumber : ∀ other ∈ before.stack, after.number other = before.number other :=
    fun other hother => hfollows.number_of_mem (hsound.stack_met hother)
  constructor
  case stack_met =>
    rw [hrest]
    exact fun other hother => hfollows.sound.stack_met (hmem other hother)
  case ordered =>
    have hordered := hfollows.sound.ordered
    rw [hstack, List.append_cons, List.pairwise_append] at hordered
    rw [hrest]
    exact hordered.2.1
  case opened_stack =>
    rw [hrest]
    exact hsound.opened_stack
  case visited => exact fun other hother hclosed => hfollows.successors_subset hother hclosed
  case closed =>
    simp only [hfollows.isComplete_complete_iff hstack hseparate hnot]
    rintro other (hother | hother) next hnext
    · exact .inl (hfollows.sound.closed other hother next hnext)
    · exact hfollows.isComplete_successor hsound hleast hstack hseparate hother hnext
  case leads =>
    rw [hrest]
    exact fun first hfirst second hsecond =>
      hfollows.sound.leads first (hmem first hfirst) second (hmem second hsecond)
  case returns =>
    rw [hrest]
    intro other hother
    obtain ⟨entry, hentry, hle, hback⟩ := hsound.returns other hother
    rw [← hnumber other hother, ← hnumber entry (hsound.opened_stack hentry)] at hle
    exact ⟨entry, hentry, hle, hback⟩
  case mem_cyclic_iff =>
    exact fun _ => hfollows.mem_cyclic_complete_iff hsound hleads hleast hstack hseparate hnot

end Complete

theorem Follows.visits_complete (hsound : before.Sound successors opened)
    (hnew : node ∉ before.met) (hleads : ∀ entry ∈ opened, Leads successors entry node)
    (hleast : least = before.met.length) :
    Visits successors opened before node (after.complete successors node) least := by
  obtain ⟨added, hstack, hnot, hseparate⟩ := hfollows.exists_added
  have hextends := (Survey.extends_enter hnew).trans hfollows.extends_enter
  have hrest : (after.complete successors node).stack = before.stack := by
    rw [complete_of_stack_eq hstack hnot]
  constructor
  case sound => exact hfollows.sound_complete hsound hleads hleast hstack hseparate hnot
  case extends_before =>
    refine ⟨hextends.met, ?_, fun other hother _ => ?_⟩
    · exact hrest.symm ▸ List.suffix_refl before.stack
    · rwa [hrest] at hother
  case mem_met => exact hfollows.sound.stack_met hfollows.mem_stack
  case number_eq => exact hfollows.number_eq hnew
  case least_le => exact hfollows.least_le
  case refers => exact fun hless => absurd hleast (Nat.ne_of_lt hless)
  case least_le_of_refers =>
    rw [hrest]
    exact fun other hother hfresh => absurd hother hfresh

end Finish

/-! ## The whole search -/

section Whole

variable {nodes : List Node}

theorem follows_foldl {search : Survey Node → Node → Survey Node × Nat} {allowance : Nat}
    (hsearch : ∀ opened survey next, survey.Sound successors opened → next ∉ survey.met →
      (∀ entry ∈ opened, Leads successors entry next) →
      (unvisited nodes survey.met).length < allowance →
      Visits successors opened survey next (search survey next).1 (search survey next).2)
    (hleads : ∀ entry ∈ opened, Leads successors entry node)
    (hroom : (unvisited nodes (before.enter node).met).length < allowance)
    (followed rest : List Node) (hall : followed ++ rest = successors node)
    (hfollows : Follows successors opened before node followed after least) :
    Follows successors opened before node (successors node)
      (rest.foldl (follow search) (after, least)).1
      (rest.foldl (follow search) (after, least)).2 := by
  induction rest generalizing followed after least with
  | nil =>
      rw [List.append_nil] at hall
      exact hall ▸ hfollows
  | cons next rest ih =>
      have hnext : next ∈ successors node := by
        rw [← hall]
        exact List.mem_append_right _ (List.mem_cons_self ..)
      rw [List.append_cons] at hall
      rw [List.foldl_cons]
      by_cases hmet : next ∈ after.met
      · have hstep := hfollows.met hnext hmet
        rw [follow, if_pos hmet]
        exact ih (followed ++ [next]) hall hstep
      · have hentries : ∀ entry ∈ node :: opened, Leads successors entry next :=
          List.forall_mem_cons.mpr
            ⟨.single hnext, fun entry hentry => (hleads entry hentry).tail hnext⟩
        have hless := Nat.lt_of_le_of_lt
          (length_unvisited_le hfollows.extends_enter.met.subset) hroom
        have hvisits := hsearch (node :: opened) after next hfollows.sound hmet hentries hless
        rw [follow, if_neg hmet]
        exact ih (followed ++ [next]) hall (hfollows.visit hnext hvisits)

/-- A visit with a greater allowance than there are new nodes achieves what it is for. -/
theorem visits_visit (hleaf : ∀ node, node ∉ nodes → successors node = []) (allowance : Nat)
    (opened : List Node) (survey : Survey Node) (node : Node)
    (hsound : survey.Sound successors opened) (hnew : node ∉ survey.met)
    (hleads : ∀ entry ∈ opened, Leads successors entry node)
    (hroom : (unvisited nodes survey.met).length < allowance) :
    Visits successors opened survey node (visit successors allowance survey node).1
      (visit successors allowance survey node).2 := by
  -- Each visit below has one open node more, and one node fewer to meet.
  induction allowance generalizing opened survey node with
  | zero => exact absurd hroom (Nat.not_lt_zero _)
  | succ allowance ih =>
      have henter := follows_enter hsound hnew hleads
      have hfollows : Follows successors opened survey node (successors node)
          ((successors node).foldl (follow (visit successors allowance))
            (survey.enter node, survey.met.length)).1
          ((successors node).foldl (follow (visit successors allowance))
            (survey.enter node, survey.met.length)).2 := by
        by_cases hnode : node ∈ nodes
        · have hmore : node :: survey.met ⊆ (survey.enter node).met := by simp [enter]
          have hless := length_unvisited_cons_lt hnode hnew
          have hbelow : (unvisited nodes (survey.enter node).met).length ≤
              (unvisited nodes (node :: survey.met)).length := length_unvisited_le hmore
          exact follows_foldl ih hleads (by omega) [] _ rfl henter
        · rw [hleaf node hnode]
          exact henter
      rw [visit]
      generalize (successors node).foldl (follow (visit successors allowance))
        (survey.enter node, survey.met.length) = found at hfollows ⊢
      obtain ⟨after, least⟩ := found
      dsimp only at hfollows ⊢
      split
      · rename_i hleast
        exact hfollows.visits_complete hsound hnew hleads hleast
      · rename_i hleast
        exact hfollows.visits_of_lt hnew (Nat.lt_of_le_of_ne hfollows.least_le hleast)

/-- Visiting roots one after another, no node stays open. -/
theorem sound_foldl_visitNew (hleaf : ∀ node, node ∉ nodes → successors node = [])
    {allowance : Nat} (hallowance : nodes.length < allowance) (roots : List Node)
    (hsound : survey.Sound successors []) :
    (roots.foldl (visitNew successors allowance) survey).Sound successors [] ∧
      survey.met ++ roots ⊆ (roots.foldl (visitNew successors allowance) survey).met := by
  induction roots generalizing survey with
  | nil => exact ⟨hsound, by simp⟩
  | cons root roots ih =>
      have hstep : (visitNew successors allowance survey root).Sound successors [] ∧
          root ∈ (visitNew successors allowance survey root).met ∧
          survey.met ⊆ (visitNew successors allowance survey root).met := by
        rw [visitNew]
        split
        · rename_i hmet
          exact ⟨hsound, hmet, List.Subset.refl _⟩
        · rename_i hnew
          have hvisits := visits_visit hleaf allowance [] survey root hsound hnew
            (fun _ hentry => nomatch hentry)
            (Nat.lt_of_le_of_lt (List.length_filter_le _ nodes) hallowance)
          exact ⟨hvisits.sound, hvisits.mem_met, hvisits.extends_before.met.subset⟩
      obtain ⟨hnext, hroot, hkeeps⟩ := hstep
      obtain ⟨hlast, hmet⟩ := ih hnext
      refine ⟨hlast, fun node hnode => hmet ?_⟩
      rw [List.mem_append, List.mem_cons] at hnode
      rcases hnode with hold | rfl | hrest
      · exact List.mem_append_left _ (hkeeps hold)
      · exact List.mem_append_left _ hroot
      · exact List.mem_append_right _ hrest

theorem Sound.stack_eq_nil (hsound : survey.Sound successors []) : survey.stack = [] := by
  refine List.eq_nil_iff_forall_not_mem.mpr fun node hnode => ?_
  obtain ⟨entry, hentry, -⟩ := hsound.returns node hnode
  cases hentry

end Whole

end Survey

/-- The search finds which of its roots are on cycles. -/
theorem mem_cyclic_iff {nodes : List Node} (hleaf : ∀ node, node ∉ nodes → successors node = [])
    {allowance : Nat} (hallowance : nodes.length < allowance) {roots : List Node} {node : Node}
    (hroot : node ∈ roots) :
    node ∈ cyclic successors allowance roots ↔ OnCycle successors node := by
  have hstart : Survey.Sound successors [] ({} : Survey Node) := by
    constructor <;> simp [Survey.IsComplete]
  obtain ⟨hsound, hmet⟩ := Survey.sound_foldl_visitNew hleaf hallowance roots hstart
  have hcomplete : Survey.IsComplete (roots.foldl (Survey.visitNew successors allowance) {})
      node := by
    refine ⟨hmet (List.mem_append_right _ hroot), ?_⟩
    rw [hsound.stack_eq_nil]
    exact List.not_mem_nil
  rw [cyclic, hsound.mem_cyclic_iff, and_iff_right hcomplete]

end SpeechGrammar.Graph
