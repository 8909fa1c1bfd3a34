import SpeechGrammar.Proofs.Unfolding.Labelling
import SpeechGrammar.Proofs.Grammar.Bounds

/-!
# What is read along paths is read off trees

Labels are found piece by piece.  Behind a piece anything may be read, as long
as the open rules that are at their end there are labelled accordingly: what
can be read from the entry of such a rule is a reading of the rule in front of
what can be read behind the piece.
-/

namespace SpeechGrammar

variable {P W : Type} [BranchWeight P] [ExactWeight W] [ExactLogarithm P W]

def relabel (label : Nat → Set (Reading W)) (next : Nat) (first last : Set (Reading W)) :
    Nat → Set (Reading W) :=
  fun state => if state = next then first else if state = next + 1 then last else label state

section Relabel

variable {label : Nat → Set (Reading W)} {next : Nat} {first last : Set (Reading W)}

omit [ExactWeight W] in
@[simp] theorem relabel_first : relabel label next first last next = first := by
  simp [relabel]

omit [ExactWeight W] in
@[simp] theorem relabel_last : relabel label next first last (next + 1) = last := by
  simp [relabel]

omit [ExactWeight W] in
theorem relabel_of_lt {state : Nat} (hstate : state < next) :
    relabel label next first last state = label state := by
  rw [relabel, if_neg (by omega), if_neg (by omega)]

omit [ExactWeight W] in
theorem agrees_of_relabel {other : Nat → Set (Reading W)}
    (hagrees : ∀ state < next + 2, other state = relabel label next first last state) :
    other next = first ∧ other (next + 1) = last ∧ ∀ state < next, other state = label state := by
  refine ⟨?_, ?_, fun state hstate => ?_⟩
  · rw [hagrees next (by omega), relabel_first]
  · rw [hagrees (next + 1) (by omega), relabel_last]
  · rw [hagrees state (by omega), relabel_of_lt hstate]

end Relabel

namespace Scope

variable {scope : Scope P} {languageWeight : P} {opened : List OpenRule} {doors : List Doors}
  {floor next : Nat} {tags : TagSet} {outer label : Nat → Set (Reading W)}
  {inner rest : Set (Reading W)}

/-- The open rules from a depth on are labelled as what is read behind their end demands. -/
def Ready (scope : Scope P) (languageWeight : P) (opened : List OpenRule) (doors : List Doors)
    (floor : Nat) (tags : TagSet) (outer : Nat → Set (Reading W)) (rest : Set (Reading W)) : Prop :=
  ∀ depth, floor ≤ depth → ∀ rule ∈ opened[depth]?, ∀ door ∈ doors[depth]?,
    ∀ reading ∈ outer door.entry,
      ∃ first ∈ scope.ruleReadings languageWeight rule.target, ∃ second ∈ rest,
        reading.mark tags = (first.append second).mark tags

theorem ready_aside : scope.Ready languageWeight opened doors opened.length tags outer rest := by
  intro depth hdepth rule hrule
  rw [List.getElem?_eq_none hdepth] at hrule
  cases hrule

theorem Ready.transfer {other : Nat → Set (Reading W)} {others : Set (Reading W)}
    (hready : scope.Ready languageWeight opened doors floor tags outer rest)
    (hdoors : DoorsBelow next doors) (hagrees : ∀ state < next, other state = outer state)
    (hrest : ∀ second ∈ rest, second ∈ others ∨ second.mark tags ∈ others) :
    scope.Ready languageWeight opened doors floor tags other others := by
  intro depth hdepth rule hrule door hdoor reading hreading
  rw [hagrees _ (hdoors door (List.mem_of_getElem? hdoor)).1] at hreading
  obtain ⟨first, hfirst, second, hsecond, heq⟩ := hready depth hdepth rule hrule door hdoor reading
    hreading
  rcases hrest second hsecond with hother | hother
  · exact ⟨first, hfirst, second, hother, heq⟩
  · refine ⟨first, hfirst, _, hother, ?_⟩
    rw [heq, Reading.append_mark, Reading.mark_mark_self]

theorem Ready.mark (hready : scope.Ready languageWeight opened doors floor tags outer rest)
    (more : TagSet) :
    scope.Ready languageWeight opened doors floor (tags.union more) outer rest := by
  intro depth hdepth rule hrule door hdoor reading hreading
  obtain ⟨first, hfirst, second, hsecond, heq⟩ := hready depth hdepth rule hrule door hdoor reading
    hreading
  refine ⟨first, hfirst, second, hsecond, ?_⟩
  rw [SortedSet.union_comm, ← Reading.mark_mark, heq, Reading.mark_mark]

theorem Ready.enter {first last : Nat} {target : Target} {name : String}
    (hready : scope.Ready languageWeight opened doors floor tags outer rest)
    (hlength : doors.length = opened.length)
    (hentry : outer first = through tags (scope.ruleReadings languageWeight target) rest) :
    scope.Ready languageWeight (opened ++ [⟨target, name⟩]) (doors ++ [⟨first, last⟩]) floor tags
      outer rest := by
  intro depth hdepth rule hrule door hdoor reading hreading
  rcases getElem?_concat_eq_some_iff.mp hrule with hrule | ⟨rfl, rfl⟩
  · have hlt : depth < doors.length := hlength ▸ (List.getElem?_eq_some_iff.mp hrule).1
    rw [Option.mem_def, List.getElem?_append_left hlt] at hdoor
    exact hready depth hdepth rule hrule door hdoor reading hreading
  · rw [Option.mem_def, ← hlength, List.getElem?_concat_length] at hdoor
    obtain rfl := Option.some.inj hdoor
    rw [hentry] at hreading
    obtain ⟨first, hfirst, second, hsecond, rfl⟩ := hreading
    exact ⟨first, hfirst, second, hsecond, Reading.mark_mark_self ..⟩

/-- Labels that keep those of states numbered before, and are respected by some transitions. -/
structure Labels (outer : Nat → Set (Reading W)) (next : Nat) (transitions : List (Transition W))
    (last : Nat) (rest : Set (Reading W)) (label : Nat → Set (Reading W)) : Prop where
  agrees : ∀ state < next, label state = outer state
  respects : Respects label transitions
  rest_subset : rest ⊆ label last

/-- Labels of a piece are still there when only states numbered behind it get others. -/
theorem Labels.keep {piece : Piece W} {first : Nat → Set (Reading W)}
    (hlabels : Labels outer next piece.transitions piece.last rest first)
    (hbounded : piece.Bounded next) (hkeeps : ∀ state < piece.next, label state = first state) :
    Labels outer next piece.transitions piece.last rest label where
  agrees state hstate :=
    (hkeeps state (hstate.trans_le hbounded.next_le)).trans (hlabels.agrees state hstate)
  respects := hlabels.respects.congr hbounded.ends hkeeps
  rest_subset := by
    rw [hkeeps _ hbounded.last_lt]
    exact hlabels.rest_subset

/-- Wherever an unfolding is wired there are labels that give its first state some readings. -/
def Labelled (scope : Scope P) (languageWeight : P) (opened : List OpenRule) (floor : Nat)
    (unfolding : Unfolding P) (inner : Set (Reading W)) : Prop :=
  ∀ ⦃doors : List Doors⦄ ⦃tags : TagSet⦄ ⦃next : Nat⦄ ⦃outer : Nat → Set (Reading W)⦄
    ⦃rest : Set (Reading W)⦄, doors.length = opened.length → DoorsBelow next doors →
    scope.Ready languageWeight opened doors floor tags outer rest →
    ∃ label, Labels outer next
        (unfolding.wire languageWeight doors tags next : Piece W).transitions
        (unfolding.wire languageWeight doors tags next : Piece W).last rest label ∧
      label (unfolding.wire languageWeight doors tags next : Piece W).first ⊆
        through tags inner rest

theorem labelled_word (text : String) :
    scope.Labelled languageWeight opened floor (.word text)
      (scope.readings languageWeight (.literal text) : Set (Reading W)) := by
  intro doors tags next outer rest hlength hdoors hready
  rw [Unfolding.wire]
  refine ⟨relabel outer next (through tags (scope.readings languageWeight (.literal text)) rest)
    rest, ⟨fun state hstate => relabel_of_lt hstate, .cons ?_ .nil, ?_⟩, ?_⟩
  · intro reading hreading
    rw [relabel_last] at hreading
    rw [relabel_first]
    refine ⟨_, ⟨.word text, .literal text, reading_word ..⟩, reading, hreading, ?_⟩
    simp [Transition.reading, Reading.append, Reading.mark]
  · rw [relabel_last]
  · rw [relabel_first]

/-- A rule is labelled with its readings if its body is. -/
theorem labelled_rule {target : Target} {name : String} {body : Unfolding P}
    (hbody : scope.Labelled languageWeight (opened ++ [⟨target, name⟩]) floor body
      (scope.ruleReadings languageWeight target : Set (Reading W))) :
    scope.Labelled languageWeight opened floor (.rule target body)
      (scope.ruleReadings languageWeight target : Set (Reading W)) := by
  intro doors tags next outer rest hlength hdoors hready
  rw [Unfolding.wire]
  set entry := through tags (scope.ruleReadings languageWeight target) rest with hentry
  set relabelled := relabel outer next entry rest with hrelabelled
  have hagrees : ∀ state < next, relabelled state = outer state := fun _ => relabel_of_lt
  have hnext : relabelled next = entry := relabel_first
  have hready' : scope.Ready languageWeight (opened ++ [⟨target, name⟩])
      (doors ++ [⟨next, next + 1⟩]) floor tags relabelled (marked tags rest) :=
    ((hready.transfer hdoors hagrees fun _ => .inl).enter hlength hnext).transfer hdoors.enter
      (fun _ _ => rfl) fun second hsecond => .inr ⟨second, hsecond, rfl⟩
  obtain ⟨label, ⟨hkeeps, hrespects, hlast⟩, hfirst⟩ :=
    hbody (by simp [hlength]) hdoors.enter hready'
  obtain ⟨hlabelNext, hlabelExit, hbefore⟩ := agrees_of_relabel hkeeps
  refine ⟨label, ⟨hbefore, hrespects.append (.epsilon ?_ (.epsilon ?_ .nil)), ?_⟩, ?_⟩
  · intro reading hreading
    obtain ⟨first, hmem, _, ⟨second, hsecond, rfl⟩, rfl⟩ := hfirst hreading
    rw [hlabelNext, Reading.append_mark, Reading.mark_mark_self, Reading.mark_mark_self]
    exact ⟨first, hmem, second, hsecond, rfl⟩
  · intro reading hreading
    rw [hlabelExit] at hreading
    exact hlast ⟨reading, hreading, rfl⟩
  · rw [hlabelExit]
  · rw [hlabelNext]

/-- An exact return is labelled with the readings of the open rule. -/
theorem labelled_recursion {depth : Nat} {rule : OpenRule} (hdepth : floor ≤ depth)
    (hrule : rule ∈ opened[depth]?) :
    scope.Labelled languageWeight opened floor (.recursion depth rule.name true)
      (scope.ruleReadings languageWeight rule.target : Set (Reading W)) := by
  intro doors tags next outer rest hlength hdoors hready
  have hlt : depth < doors.length := hlength ▸ (List.getElem?_eq_some_iff.mp hrule).1
  have hdoor : doors[depth]? = some doors[depth] := List.getElem?_eq_getElem hlt
  have hentry : doors[depth].entry < next := (hdoors _ (List.getElem_mem hlt)).1
  rw [Unfolding.wire, List.getD_eq_getElem?_getD, hdoor, Option.getD_some, if_pos rfl]
  refine ⟨relabel outer next (marked tags (outer doors[depth].entry)) rest,
    ⟨fun state hstate => relabel_of_lt hstate, .epsilon ?_ .nil, ?_⟩, ?_⟩
  · intro reading hreading
    rw [relabel_of_lt hentry] at hreading
    rw [relabel_first]
    exact ⟨reading, hreading, rfl⟩
  · rw [relabel_last]
  · rw [relabel_first]
    rintro _ ⟨reading, hreading, rfl⟩
    obtain ⟨first, hfirst, second, hsecond, heq⟩ :=
      hready depth hdepth rule hrule _ hdoor reading hreading
    exact ⟨first, hfirst, second, hsecond, heq⟩

theorem labelled_tagged {body : Expansion P} {unfolding : Unfolding P} (extra : List Tag)
    (hbody : scope.Labelled languageWeight opened floor unfolding
      (scope.readings languageWeight body : Set (Reading W))) :
    scope.Labelled languageWeight opened floor (.tagged unfolding extra)
      (scope.readings languageWeight (.tagged body extra) : Set (Reading W)) := by
  intro doors tags next outer rest hlength hdoors hready
  rw [Unfolding.wire, SortedSet.insertAll_eq_union]
  obtain ⟨label, hlabels, hfirst⟩ := hbody hlength hdoors (hready.mark (.ofList extra))
  refine ⟨label, hlabels, fun reading hreading => ?_⟩
  obtain ⟨first, hmem, second, hsecond, rfl⟩ := hfirst hreading
  refine ⟨_, readings_tagged hmem, second, hsecond, ?_⟩
  rw [Reading.mark_append, Reading.mark_mark]

/-- Copies of a body are labelled with its readings, and only behind the last the end is near. -/
def LabelledCopies (scope : Scope P) (languageWeight : P) (opened : List OpenRule) (floor : Nat)
    (inner : Set (Reading W)) : List (Unfolding P) → Prop
  | [] => True
  | item :: items =>
      scope.Labelled languageWeight opened (if items.isEmpty then floor else opened.length) item
        inner ∧ scope.LabelledCopies languageWeight opened floor inner items

/-- A piece in front of others is ready, as the end is near only if there are no others. -/
theorem Ready.item {α : Type} {items : List α}
    (hready : scope.Ready languageWeight opened doors floor tags outer rest)
    {others : Set (Reading W)} (hrest : items = [] → ∀ second ∈ rest,
      second ∈ others ∨ second.mark tags ∈ others) (hdoors : DoorsBelow next doors) :
    scope.Ready languageWeight opened doors (if items.isEmpty then floor else opened.length) tags
      outer others := by
  cases items with
  | nil => exact hready.transfer hdoors (fun _ _ => rfl) (hrest rfl)
  | cons item items => exact ready_aside

/-- Copies in a row are labelled with the readings of as many iterations as may follow. -/
theorem labels_copies {body : Expansion P} {bypass : Nat} (items : List (Unfolding P))
    (hitems : scope.LabelledCopies languageWeight opened floor
      (scope.readings languageWeight body : Set (Reading W)) items) {required last : Nat}
    (hlength : doors.length = opened.length) (hdoors : DoorsBelow next doors)
    (hready : scope.Ready languageWeight opened doors floor tags outer rest)
    (hrequired : required ≤ items.length) (hbypassLt : bypass < next) (hlastLt : last < next)
    (hbypass : outer bypass ⊆ rest)
    (hlast : through tags (scope.readings languageWeight
      (.repetition body required (some items.length))) rest ⊆ outer last) :
    ∃ label, Labels outer next
      (Unfolding.wireCopies languageWeight doors tags bypass required last next items :
        Piece W).transitions
      (Unfolding.wireCopies languageWeight doors tags bypass required last next items :
        Piece W).last (marked tags rest) label := by
  induction items generalizing required last next outer with
  | nil =>
      obtain rfl := Nat.le_zero.mp hrequired
      rw [Unfolding.wireCopies]
      exact ⟨outer, fun _ _ => rfl, .nil,
        (marked_subset_through readings_no_iteration).trans hlast⟩
  | cons item items ih =>
      rw [Unfolding.wireCopies]
      rw [List.length_cons] at hrequired hlast
      obtain ⟨hitem, hcopies⟩ := hitems
      set behind := through tags (scope.readings languageWeight
        (.repetition body (required - 1) (some items.length))) rest with hbehind
      have hblank : items = [] → ∀ second ∈ rest, second ∈ behind ∨ second.mark tags ∈ behind := by
        rintro rfl second hsecond
        refine .inr (marked_subset_through ?_ ⟨second, hsecond, rfl⟩)
        rw [List.length_nil] at hrequired
        rw [Nat.sub_eq_zero_of_le hrequired]
        exact readings_no_iteration
      have hhead : (item.wire languageWeight doors tags next : Piece W).Bounded next :=
        Unfolding.wire_bounded languageWeight tags hdoors item
      have hnext := hhead.next_le
      obtain ⟨first, hlabels, hfirst⟩ := hitem hlength hdoors (hready.item hblank hdoors)
      obtain ⟨label, hkeeps, hrespectsTail, hrestTail⟩ :=
        ih hcopies (hdoors.mono hnext) (hready.transfer hdoors hlabels.agrees fun _ => .inl)
          (by omega) (hbypassLt.trans_le hnext) hhead.last_lt
          (by rwa [hlabels.agrees bypass hbypassLt]) hlabels.rest_subset
      obtain ⟨hsame, hrespects, -⟩ := hlabels.keep hhead hkeeps
      refine ⟨label, hsame, hrespects.append (.epsilon ?_ (.append ?_ hrespectsTail)), hrestTail⟩
      · intro reading hreading
        rw [hkeeps _ hhead.first_lt] at hreading
        rw [hsame last hlastLt]
        refine hlast (mark_mem_through (hfirst hreading) fun one hone other hother => ?_)
        exact readings_iteration (by omega) (by simp) hone hother
      · split
        · rename_i hzero
          refine .epsilon (fun reading hreading => ?_) .nil
          rw [hsame bypass hbypassLt] at hreading
          rw [hsame last hlastLt]
          rw [hzero] at hlast
          exact hlast (marked_subset_through readings_no_iteration
            ⟨reading, hbypass hreading, rfl⟩)
        · exact .nil

/-- Copies in a row between two states are labelled with the readings of their numbers. -/
theorem labelled_copies {body : Expansion P} {items : List (Unfolding P)} {least : Nat}
    (hitems : scope.LabelledCopies languageWeight opened floor
      (scope.readings languageWeight body : Set (Reading W)) items)
    (hleast : least ≤ items.length) :
    scope.Labelled languageWeight opened floor (.copies least items)
      (scope.readings languageWeight (.repetition body least (some items.length)) :
        Set (Reading W)) := by
  intro doors tags next outer rest hlength hdoors hready
  rw [Unfolding.wire]
  set entry := through tags (scope.readings languageWeight
    (.repetition body least (some items.length))) rest with hentry
  have hrelabel : ∀ state < next, relabel outer next entry rest state = outer state :=
    fun _ => relabel_of_lt
  have hwired : (Unfolding.wireCopies languageWeight doors tags (next + 1) least next (next + 2)
      items : Piece W).Bounded (next + 2) :=
    Unfolding.wireCopies_bounded languageWeight tags (hdoors.mono (by omega)) (by omega) (by omega)
      least items
  have hlater : DoorsBelow (next + 2) doors := hdoors.mono (by omega)
  obtain ⟨label, hagrees, hrespects, hrest⟩ := labels_copies items hitems hlength hlater
    (hready.transfer hdoors hrelabel fun _ => .inl) hleast (by omega)
    (by omega) (le_of_eq relabel_last) (le_of_eq relabel_first.symm)
  obtain ⟨hfirst, hlast, hbefore⟩ := agrees_of_relabel hagrees
  refine ⟨label, ⟨hbefore, hrespects.append (.epsilon (fun reading hreading => ?_) .nil),
    hlast.ge⟩, hfirst.le⟩
  rw [hlast] at hreading
  exact hrest ⟨reading, hreading, rfl⟩

/-- Copies of which the last may follow itself are labelled with all numbers of iterations. -/
theorem labels_loop {body : Expansion P} {unfolding : Unfolding P}
    (hbody : scope.Labelled languageWeight opened opened.length unfolding
      (scope.readings languageWeight body : Set (Reading W))) (count : Nat) {last : Nat}
    (hlength : doors.length = opened.length) (hdoors : DoorsBelow next doors)
    (hlastLt : last < next)
    (hlast : through tags (scope.readings languageWeight (.repetition body count none)) rest ⊆
      outer last) :
    ∃ label, Labels outer next
      (Unfolding.wireLoop (P := P)
        (fun next => (unfolding.wire languageWeight doors tags next : Piece W)) tags count last
        next).transitions
      (Unfolding.wireLoop (P := P)
        (fun next => (unfolding.wire languageWeight doors tags next : Piece W)) tags count last
        next).last
      (through tags (scope.readings languageWeight (.repetition body 0 none)) rest) label := by
  induction count generalizing last next outer with
  | zero =>
      rw [Unfolding.wireLoop]
      exact ⟨outer, fun _ _ => rfl, .nil, hlast⟩
  | succ count ih =>
      rw [Unfolding.wireLoop]
      have hhead : (unfolding.wire languageWeight doors tags next : Piece W).Bounded next :=
        Unfolding.wire_bounded languageWeight tags hdoors unfolding
      obtain ⟨first, hlabels, hfirst⟩ := hbody hlength hdoors ready_aside
      obtain ⟨label, hkeeps, hrespectsTail, hrestTail⟩ :=
        ih (hdoors.mono hhead.next_le) hhead.last_lt hlabels.rest_subset
      obtain ⟨hsame, hrespects, hrestLast⟩ := hlabels.keep hhead hkeeps
      have henter : ∀ {least : Nat}, least ≤ count + 1 → ∀ reading ∈
          label (unfolding.wire languageWeight doors tags next : Piece W).first,
          reading.mark tags ∈
            through tags (scope.readings languageWeight (.repetition body least none)) rest := by
        intro least hle reading hreading
        rw [hkeeps _ hhead.first_lt] at hreading
        exact mark_mem_through (hfirst hreading) fun one hone other hother =>
          readings_iteration hle (by simp) hone hother
      refine ⟨label, hsame, hrespects.append (.epsilon ?_ (.append ?_ hrespectsTail)), hrestTail⟩
      · intro reading hreading
        rw [hsame last hlastLt]
        exact hlast (henter (le_refl _) reading hreading)
      · split
        · rename_i hzero
          subst hzero
          refine .epsilon (fun reading hreading => ?_) .nil
          exact hrestLast (henter (by omega) reading hreading)
        · exact .nil

/-- A piece repeated without end is labelled with the readings of all numbers of iterations. -/
theorem labelled_loop {body : Expansion P} {unfolding : Unfolding P} (least : Nat)
    (hbody : scope.Labelled languageWeight opened opened.length unfolding
      (scope.readings languageWeight body : Set (Reading W))) :
    scope.Labelled languageWeight opened floor (.loop least unfolding)
      (scope.readings languageWeight (.repetition body least none) : Set (Reading W)) := by
  intro doors tags next outer rest hlength hdoors hready
  rw [Unfolding.wire]
  set entry := through tags (scope.readings languageWeight (.repetition body least none)) rest
    with hentry
  have hlater : DoorsBelow (next + 2) doors := hdoors.mono (by omega)
  have hentered : through tags
      (scope.readings languageWeight (.repetition body (max least 1) none)) rest ⊆
      relabel outer next entry rest next :=
    (through_mono (readings_repetition_mono (le_max_left least 1))).trans
      (le_of_eq relabel_first.symm)
  obtain ⟨label, hagrees, hrespects, hrest⟩ :=
    labels_loop hbody (max least 1) hlength hlater (by omega) hentered
  obtain ⟨hfirst, hlast, hbefore⟩ := agrees_of_relabel hagrees
  refine ⟨label, ⟨hbefore, hrespects.append (.epsilon (fun reading hreading => ?_) ?_),
    hlast.ge⟩, hfirst.le⟩
  · rw [hlast] at hreading
    exact hrest (marked_subset_through readings_no_iteration ⟨reading, hreading, rfl⟩)
  · split
    · rename_i hzero
      subst hzero
      refine .epsilon (fun reading hreading => ?_) .nil
      rw [hlast] at hreading
      rw [hfirst]
      exact marked_subset_through readings_no_iteration ⟨reading, hreading, rfl⟩
    · exact .nil

/-! ## Expansions -/

theorem Labelled.mono {unfolding : Unfolding P} {larger : Set (Reading W)}
    (hlabelled : scope.Labelled languageWeight opened floor unfolding inner)
    (hsubset : inner ⊆ larger) : scope.Labelled languageWeight opened floor unfolding larger := by
  intro doors tags next outer rest hlength hdoors hready
  obtain ⟨label, hlabels, hfirst⟩ := hlabelled hlength hdoors hready
  exact ⟨label, hlabels, hfirst.trans (through_mono hsubset)⟩

/-- What is read behind an item of a sequence: the later items, if there are any, and the rest. -/
def behindItem (scope : Scope P) (languageWeight : P) (tags : TagSet) (items : List (Expansion P))
    (rest : Set (Reading W)) : Set (Reading W) :=
  if items.isEmpty then rest
  else through tags (scope.readings languageWeight (.sequence items)) rest

theorem through_behindItem_subset {item : Expansion P} {items : List (Expansion P)} :
    through tags (scope.readings languageWeight item)
        (scope.behindItem languageWeight tags items rest) ⊆
      through tags (scope.readings languageWeight (.sequence (item :: items))) rest := by
  intro reading hreading
  cases items with
  | nil =>
      obtain ⟨first, hfirst, second, hsecond, rfl⟩ := hreading
      refine ⟨_, readings_cons hfirst readings_nil, second, hsecond, ?_⟩
      rw [Reading.append_silent_zero]
  | cons next items =>
      rw [← mark_of_mem_through hreading]
      exact mark_mem_through hreading fun one hone other hother => readings_cons hone hother

/-- Copies of a body are labelled with its readings if they are unfolded as a repetition has it. -/
theorem labelledCopies_replicate {early last : Unfolding P} (count : Nat)
    (hearly : 0 < count → scope.Labelled languageWeight opened opened.length early inner)
    (hlast : scope.Labelled languageWeight opened floor last inner) :
    scope.LabelledCopies languageWeight opened floor inner
      (List.replicate count early ++ [last]) := by
  induction count with
  | zero => exact ⟨by simpa using hlast, trivial⟩
  | succ count ih =>
      rw [List.replicate_succ, List.cons_append]
      refine ⟨?_, ih fun _ => hearly (Nat.succ_pos count)⟩
      rw [if_neg (by simp)]
      exact hearly (Nat.succ_pos count)

theorem labelled_null :
    scope.Labelled languageWeight opened floor (.sequence [])
      (scope.readings languageWeight (.sequence []) : Set (Reading W)) := by
  intro doors tags next outer rest hlength hdoors hready
  rw [Unfolding.wire]
  refine ⟨relabel outer next (through tags (scope.readings languageWeight (.sequence [])) rest)
    rest, ⟨fun state hstate => relabel_of_lt hstate, .epsilon ?_ .nil, relabel_last.ge⟩,
    relabel_first.le⟩
  intro reading hreading
  rw [relabel_last] at hreading
  rw [relabel_first]
  exact marked_subset_through readings_nil ⟨reading, hreading, rfl⟩

/-- Wherever the later items of a sequence are wired there are labels for them. -/
def LabelledItems (scope : Scope P) (languageWeight : P) (W : Type) [ExactWeight W]
    [ExactLogarithm P W] (opened : List OpenRule) (floor : Nat) (items : List (Expansion P))
    (unfoldings : List (Unfolding P)) : Prop :=
  ∀ ⦃doors : List Doors⦄ ⦃tags : TagSet⦄ ⦃last next : Nat⦄ ⦃outer : Nat → Set (Reading W)⦄
    ⦃rest : Set (Reading W)⦄, doors.length = opened.length → DoorsBelow next doors →
    scope.Ready languageWeight opened doors floor tags outer rest → last < next →
    scope.behindItem languageWeight tags items rest ⊆ outer last →
    ∃ label, Labels outer next
      (Unfolding.wireItems languageWeight doors tags last next unfoldings : Piece W).transitions
      (Unfolding.wireItems languageWeight doors tags last next unfoldings : Piece W).last rest label

theorem labelledItems_nil : scope.LabelledItems languageWeight W opened floor [] [] := by
  intro doors tags last next outer rest hlength hdoors hready hlast hbehind
  rw [Unfolding.wireItems]
  exact ⟨outer, fun _ _ => rfl, .nil, hbehind⟩

/-- An item and the later ones are labelled together. -/
theorem labels_item {item : Expansion P} {items : List (Expansion P)} {head : Unfolding P}
    {unfoldings : List (Unfolding P)}
    (hitem : scope.Labelled languageWeight opened (if items.isEmpty then floor else opened.length)
      head (scope.readings languageWeight item : Set (Reading W)))
    (hitems : scope.LabelledItems languageWeight W opened floor items unfoldings)
    (hlength : doors.length = opened.length) (hdoors : DoorsBelow next doors)
    (hready : scope.Ready languageWeight opened doors floor tags outer rest) :
    ∃ label, Labels outer next
        ((head.wire languageWeight doors tags next : Piece W).transitions ++
          (Unfolding.wireItems languageWeight doors tags
            (head.wire languageWeight doors tags next : Piece W).last
            (head.wire languageWeight doors tags next : Piece W).next unfoldings :
            Piece W).transitions)
        (Unfolding.wireItems languageWeight doors tags
          (head.wire languageWeight doors tags next : Piece W).last
          (head.wire languageWeight doors tags next : Piece W).next unfoldings : Piece W).last
        rest label ∧
      label (head.wire languageWeight doors tags next : Piece W).first ⊆
        through tags (scope.readings languageWeight (.sequence (item :: items))) rest := by
  have hhead : (head.wire languageWeight doors tags next : Piece W).Bounded next :=
    Unfolding.wire_bounded languageWeight tags hdoors head
  have hbehind : scope.Ready languageWeight opened doors
      (if items.isEmpty then floor else opened.length) tags outer
      (scope.behindItem languageWeight tags items rest) :=
    hready.item (fun hnil second hsecond => .inl (by subst hnil; exact hsecond)) hdoors
  obtain ⟨first, hlabels, hfirst⟩ := hitem hlength hdoors hbehind
  obtain ⟨label, hkeeps, hrespectsTail, hrestTail⟩ :=
    hitems hlength (hdoors.mono hhead.next_le)
      (hready.transfer hdoors hlabels.agrees fun _ => .inl) hhead.last_lt hlabels.rest_subset
  obtain ⟨hsame, hrespects, -⟩ := hlabels.keep hhead hkeeps
  refine ⟨label, ⟨hsame, hrespects.append hrespectsTail, hrestTail⟩, ?_⟩
  rw [hkeeps _ hhead.first_lt]
  exact hfirst.trans through_behindItem_subset

theorem labelledItems_cons {item : Expansion P} {items : List (Expansion P)} {head : Unfolding P}
    {unfoldings : List (Unfolding P)}
    (hitem : scope.Labelled languageWeight opened (if items.isEmpty then floor else opened.length)
      head (scope.readings languageWeight item : Set (Reading W)))
    (hitems : scope.LabelledItems languageWeight W opened floor items unfoldings) :
    scope.LabelledItems languageWeight W opened floor (item :: items) (head :: unfoldings) := by
  intro doors tags last next outer rest hlength hdoors hready hlast hbehind
  obtain ⟨label, ⟨hagrees, hrespects, hrest⟩, hfirst⟩ :=
    labels_item hitem hitems hlength hdoors hready
  obtain ⟨hhead, htail⟩ := List.forall_mem_append.mp hrespects
  rw [Unfolding.wireItems]
  refine ⟨label, hagrees, .append hhead (.epsilon (fun reading hreading => ?_) htail), hrest⟩
  rw [hagrees last hlast, mark_of_mem_through (hfirst hreading)]
  exact hbehind (hfirst hreading)

theorem labelled_sequence {item : Expansion P} {items : List (Expansion P)} {head : Unfolding P}
    {unfoldings : List (Unfolding P)}
    (hitem : scope.Labelled languageWeight opened (if items.isEmpty then floor else opened.length)
      head (scope.readings languageWeight item : Set (Reading W)))
    (hitems : scope.LabelledItems languageWeight W opened floor items unfoldings) :
    scope.Labelled languageWeight opened floor (.sequence (head :: unfoldings))
      (scope.readings languageWeight (.sequence (item :: items)) : Set (Reading W)) := by
  intro doors tags next outer rest hlength hdoors hready
  rw [Unfolding.wire]
  exact labels_item hitem hitems hlength hdoors hready

/-- Wherever branches are wired between two states there are labels for them. -/
def LabelledBranches (scope : Scope P) (languageWeight : P) (W : Type) [ExactWeight W]
    [ExactLogarithm P W] (opened : List OpenRule) (floor : Nat)
    (branches : List (Branch P (Expansion P))) (unfoldings : List (P × Unfolding P)) : Prop :=
  ∀ ⦃doors : List Doors⦄ ⦃tags : TagSet⦄ ⦃first last next : Nat⦄
    ⦃outer : Nat → Set (Reading W)⦄ ⦃rest : Set (Reading W)⦄, doors.length = opened.length →
    DoorsBelow next doors → scope.Ready languageWeight opened doors floor tags outer rest →
    first < next → last < next →
    through tags (scope.readings languageWeight (.alternation branches)) rest ⊆ outer first →
    outer last ⊆ rest →
    ∃ label, (∀ state < next, label state = outer state) ∧ Respects label
      (Unfolding.wireBranches languageWeight doors tags first last next unfoldings :
        Piece W).transitions

theorem labelledBranches_nil (branches : List (Branch P (Expansion P))) :
    scope.LabelledBranches languageWeight W opened floor branches [] := by
  intro doors tags first last next outer rest hlength hdoors hready hfirst hlast hbranches hrest
  rw [Unfolding.wireBranches]
  exact ⟨outer, fun _ _ => rfl, .nil⟩

theorem labelledBranches_cons {branches : List (Branch P (Expansion P))}
    {branch : Branch P (Expansion P)} {head : Unfolding P} {unfoldings : List (P × Unfolding P)}
    (hmem : branch ∈ branches) (hpositive : 0 < branch.probability)
    (hhead : scope.Labelled languageWeight opened floor head
      (scope.readings languageWeight branch.body : Set (Reading W)))
    (hothers : scope.LabelledBranches languageWeight W opened floor branches unfoldings) :
    scope.LabelledBranches languageWeight W opened floor branches
      ((branch.probability, head) :: unfoldings) := by
  intro doors tags first last next outer rest hlength hdoors hready hfirst hlast hbranches hrest
  rw [Unfolding.wireBranches]
  have hbounded : (head.wire languageWeight doors tags next : Piece W).Bounded next :=
    Unfolding.wire_bounded languageWeight tags hdoors head
  have hnext := hbounded.next_le
  have hmarked : scope.Ready languageWeight opened doors floor tags outer (marked tags rest) :=
    hready.transfer hdoors (fun _ _ => rfl) fun second hsecond => .inr ⟨second, hsecond, rfl⟩
  obtain ⟨inside, hlabels, hinside⟩ := hhead hlength hdoors hmarked
  obtain ⟨label, hkeeps, hrespectsTail⟩ := hothers hlength (hdoors.mono hnext)
    (hready.transfer hdoors hlabels.agrees fun _ => .inl) (hfirst.trans_le hnext)
    (hlast.trans_le hnext) (by rwa [hlabels.agrees first hfirst])
    (by rwa [hlabels.agrees last hlast])
  obtain ⟨hsame, hrespects, hrestLast⟩ := hlabels.keep hbounded hkeeps
  refine ⟨label, hsame, hrespects.append (.cons ?_ (.epsilon ?_ hrespectsTail))⟩
  · intro reading hreading
    change reading ∈ label (head.wire languageWeight doors tags next : Piece W).first at hreading
    change _ ∈ label first
    rw [hkeeps _ hbounded.first_lt] at hreading
    obtain ⟨one, hone, _, ⟨second, hsecond, rfl⟩, rfl⟩ := hinside hreading
    rw [reading_weighted_append, hsame first hfirst]
    refine hbranches ⟨_, readings_branch hmem hpositive hone, second, hsecond, ?_⟩
    simp only [Reading.append_mark, Reading.mark_mark_self, Reading.append_assoc]
  · intro reading hreading
    rw [hsame last hlast] at hreading
    exact hrestLast ⟨reading, hrest hreading, rfl⟩

theorem labelled_choice {branches : List (Branch P (Expansion P))}
    {unfoldings : List (P × Unfolding P)}
    (hbranches : scope.LabelledBranches languageWeight W opened floor branches unfoldings) :
    scope.Labelled languageWeight opened floor (.choice unfoldings)
      (scope.readings languageWeight (.alternation branches) : Set (Reading W)) := by
  intro doors tags next outer rest hlength hdoors hready
  rw [Unfolding.wire]
  set entry := through tags (scope.readings languageWeight (.alternation branches)) rest
    with hentry
  have hrelabel : ∀ state < next, relabel outer next entry rest state = outer state :=
    fun _ => relabel_of_lt
  have hlater : DoorsBelow (next + 2) doors := hdoors.mono (by omega)
  obtain ⟨label, hagrees, hrespects⟩ := hbranches hlength hlater
    (hready.transfer hdoors hrelabel fun _ => .inl) (by omega) (by omega)
    relabel_first.ge relabel_last.le
  obtain ⟨hfirst, hlast, hbefore⟩ := agrees_of_relabel hagrees
  exact ⟨label, ⟨hbefore, hrespects, hlast.ge⟩, hfirst.le⟩

def LabelsReferences (scope : Scope P) (languageWeight : P) (W : Type) [ExactWeight W]
    [ExactLogarithm P W] (follow : List OpenRule → Nat → Reference → Unfolding P) : Prop :=
  ∀ opened floor link, (follow opened floor link).Exact →
    scope.Labelled languageWeight opened floor (follow opened floor link)
      (scope.readings languageWeight (.reference link) : Set (Reading W))

/-- Copies unfolded for a repetition with a greatest number are labelled with its readings. -/
theorem labelled_copiesOf {body : Expansion P} {early last : Unfolding P} {least most : Nat}
    (hle : least ≤ most)
    (hearly : early.Exact → scope.Labelled languageWeight opened opened.length early
      (scope.readings languageWeight body : Set (Reading W)))
    (hlast : last.Exact → scope.Labelled languageWeight opened floor last
      (scope.readings languageWeight body : Set (Reading W)))
    (hexact : ∀ copy ∈ Unfolding.copiesOf most (fun _ => early) (fun _ => last), copy.Exact) :
    scope.Labelled languageWeight opened floor
      (.copies least (Unfolding.copiesOf most (fun _ => early) (fun _ => last)))
      (scope.readings languageWeight (.repetition body least (some most)) : Set (Reading W)) := by
  cases most with
  | zero => exact labelled_copies trivial hle
  | succ count =>
      have hcopies := Unfolding.copiesOf_succ_of_exact hexact
      rw [hcopies] at hexact ⊢
      have hlength : (List.replicate count early ++ [last]).length = count + 1 := by simp
      rw [← hlength]
      refine labelled_copies (labelledCopies_replicate count (fun hcount => hearly ?_)
        (hlast ?_)) (by omega)
      · exact hexact early (by simp; omega)
      · exact hexact last (by simp)

section Unfold

variable {follow : List OpenRule → Nat → Reference → Unfolding P}

mutual

/-- If exact references are labelled with their readings, so are all expansions. -/
theorem labelled_unfold (hfollow : scope.LabelsReferences languageWeight W follow)
    (opened : List OpenRule) (floor : Nat) (expansion : Expansion P)
    (hbounded : expansion.ProperlyBounded)
    (hexact : (expansion.unfold follow opened floor).Exact) :
    scope.Labelled languageWeight opened floor (expansion.unfold follow opened floor)
      (scope.readings languageWeight expansion : Set (Reading W)) := by
  match expansion with
  | .literal text =>
      rw [Expansion.unfold]
      exact labelled_word text
  | .reference link => exact hfollow opened floor link hexact
  | .sequence [] => exact labelled_null
  | .sequence (item :: items) =>
      rw [Expansion.unfold, Expansion.unfoldItems] at hexact ⊢
      obtain ⟨hitem, hitems⟩ := List.forall_mem_cons.mp (Unfolding.exact_sequence_iff.mp hexact)
      exact labelled_sequence (labelled_unfold hfollow opened _ item hbounded.1 hitem)
        (labelledItems_unfold hfollow opened floor items hbounded.2 hitems)
  | .alternation branches =>
      rw [Expansion.unfold] at hexact ⊢
      exact labelled_choice (labelledBranches_unfold hfollow opened floor branches hbounded
        (Unfolding.exact_choice_iff.mp hexact) (List.Subset.refl branches))
  | .repetition body least (some most) =>
      have hle : least ≤ most := hbounded.1 most rfl
      rw [Expansion.unfold, max_eq_left hle] at hexact ⊢
      exact labelled_copiesOf hle (labelled_unfold hfollow opened opened.length body hbounded.2)
        (labelled_unfold hfollow opened floor body hbounded.2)
        (Unfolding.exact_copies_iff.mp hexact)
  | .repetition body least none =>
      rw [Expansion.unfold] at hexact ⊢
      exact labelled_loop least (labelled_unfold hfollow opened opened.length body hbounded.2
        (Unfolding.exact_loop_iff.mp hexact))
  | .optional body =>
      rw [Expansion.unfold] at hexact ⊢
      have hbody : (body.unfold follow opened floor).Exact :=
        Unfolding.exact_copies_iff.mp hexact _ (List.mem_singleton_self _)
      have hcopies : scope.LabelledCopies languageWeight opened floor
          (scope.readings languageWeight body : Set (Reading W))
          [body.unfold follow opened floor] :=
        ⟨labelled_unfold hfollow opened floor body hbounded hbody, trivial⟩
      exact (labelled_copies hcopies (Nat.zero_le _)).mono fun reading ⟨tree, htree, heq⟩ =>
        ⟨tree, .optional htree, heq⟩
  | .tagged body tags =>
      rw [Expansion.unfold] at hexact ⊢
      exact labelled_tagged tags (labelled_unfold hfollow opened floor body hbounded
        (Unfolding.exact_tagged_iff.mp hexact))

theorem labelledItems_unfold (hfollow : scope.LabelsReferences languageWeight W follow)
    (opened : List OpenRule) (floor : Nat) (items : List (Expansion P))
    (hbounded : Expansion.ProperlyBoundedItems items)
    (hexact : ∀ item ∈ Expansion.unfoldItems follow opened floor items, item.Exact) :
    scope.LabelledItems languageWeight W opened floor items
      (Expansion.unfoldItems follow opened floor items) := by
  match items with
  | [] => exact labelledItems_nil
  | item :: items =>
      rw [Expansion.unfoldItems] at hexact ⊢
      obtain ⟨hitem, hitems⟩ := List.forall_mem_cons.mp hexact
      exact labelledItems_cons (labelled_unfold hfollow opened _ item hbounded.1 hitem)
        (labelledItems_unfold hfollow opened floor items hbounded.2 hitems)

theorem labelledBranches_unfold (hfollow : scope.LabelsReferences languageWeight W follow)
    (opened : List OpenRule) (floor : Nat) {all : List (Branch P (Expansion P))}
    (branches : List (Branch P (Expansion P)))
    (hbounded : Expansion.ProperlyBoundedBranches branches)
    (hexact : ∀ branch ∈ Expansion.unfoldBranches follow opened floor branches, branch.2.Exact)
    (hsubset : branches ⊆ all) :
    scope.LabelledBranches languageWeight W opened floor all
      (Expansion.unfoldBranches follow opened floor branches) := by
  match branches with
  | [] => exact labelledBranches_nil all
  | ⟨weight?, probability, body⟩ :: branches =>
      rw [Expansion.unfoldBranches] at hexact ⊢
      obtain ⟨hmem, hrest⟩ := List.cons_subset.mp hsubset
      split at hexact <;> rename_i hpositive
      · rw [if_pos hpositive]
        obtain ⟨hbody, hbranches⟩ := List.forall_mem_cons.mp hexact
        exact labelledBranches_cons hmem (of_decide_eq_true hpositive)
          (labelled_unfold hfollow opened floor body hbounded.1 hbody)
          (labelledBranches_unfold hfollow opened floor branches hbounded.2 hbranches hrest)
      · rw [if_neg hpositive]
        exact labelledBranches_unfold hfollow opened floor branches hbounded.2 hexact hrest

end

end Unfold

/-- Exact references are labelled with their readings, whatever room is left. -/
theorem labelsReferences_unfoldReference (hbounded : scope.ProperlyBounded) (room : Nat) :
    scope.LabelsReferences languageWeight W (scope.unfoldReference room) := by
  intro opened floor link hexact
  obtain ⟨target, htarget, ⟨depth, rule, hfloor, hrule, rfl, -, heq⟩ |
    ⟨left, rule, rfl, hrule, -, heq, hbody⟩⟩ := exact_unfoldReference_cases hexact
  · rw [heq]
    exact (labelled_recursion hfloor hrule).mono fun reading => readings_reference htarget
  · rw [heq]
    have hinner := labelled_unfold (labelsReferences_unfoldReference hbounded left)
      (opened ++ [⟨target, rule.name⟩]) floor rule.body (hbounded.of_follow? hrule) hbody
    have hrule' := labelled_rule (hinner.mono fun reading hreading => ⟨rule, hrule, hreading⟩)
    exact hrule'.mono fun reading => readings_reference htarget

end Scope

end SpeechGrammar
