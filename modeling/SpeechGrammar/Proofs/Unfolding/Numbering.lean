import Mathlib.Order.Nat
import SpeechGrammar.Automaton.Wiring

/-!
# Numbers of states

A piece is wired on states that are not numbered yet, so all states that it
names come before the next free one.  Pieces wired later leave them alone.
-/

namespace SpeechGrammar

variable {P W : Type}

def EndsBelow (bound : Nat) (transitions : List (Transition W)) : Prop :=
  ∀ step ∈ transitions, step.source < bound ∧ step.target < bound

namespace EndsBelow

variable {bound higher : Nat} {transitions others : List (Transition W)} {step : Transition W}

theorem nil : EndsBelow bound ([] : List (Transition W)) := by
  simp [EndsBelow]

theorem cons (hsource : step.source < bound) (htarget : step.target < bound)
    (hrest : EndsBelow bound transitions) : EndsBelow bound (step :: transitions) :=
  List.forall_mem_cons.mpr ⟨⟨hsource, htarget⟩, hrest⟩

theorem epsilon [LogWeight W] {tags : TagSet} {source target : Nat} (hsource : source < bound)
    (htarget : target < bound) (hrest : EndsBelow bound transitions) :
    EndsBelow bound (Unfolding.epsilon tags source target :: transitions) :=
  .cons hsource htarget hrest

theorem append (hfirst : EndsBelow bound transitions) (hsecond : EndsBelow bound others) :
    EndsBelow bound (transitions ++ others) :=
  List.forall_mem_append.mpr ⟨hfirst, hsecond⟩

theorem mono (hbelow : EndsBelow bound transitions) (hle : bound ≤ higher) :
    EndsBelow higher transitions := fun step hstep =>
  ⟨(hbelow step hstep).1.trans_le hle, (hbelow step hstep).2.trans_le hle⟩

end EndsBelow

/-- What stands in a list with one more value at its end stood there before or is that value. -/
theorem getElem?_concat_eq_some_iff {α : Type} {values : List α} {last value : α} {place : Nat} :
    (values ++ [last])[place]? = some value ↔
      values[place]? = some value ∨ place = values.length ∧ last = value := by
  rcases Nat.lt_trichotomy place values.length with hless | rfl | hmore
  · rw [List.getElem?_append_left hless]
    simp [hless.ne]
  · rw [List.getElem?_concat_length]
    simp
  · rw [List.getElem?_eq_none (by simp; omega), List.getElem?_eq_none hmore.le]
    simp [hmore.ne']

def DoorsBelow (bound : Nat) (doors : List Doors) : Prop :=
  ∀ door ∈ doors, door.entry < bound ∧ door.exit < bound

namespace DoorsBelow

variable {bound higher : Nat} {doors : List Doors}

theorem mono (hdoors : DoorsBelow bound doors) (hle : bound ≤ higher) : DoorsBelow higher doors :=
  fun door hdoor => ⟨(hdoors door hdoor).1.trans_le hle, (hdoors door hdoor).2.trans_le hle⟩

theorem enter (hdoors : DoorsBelow bound doors) :
    DoorsBelow (bound + 2) (doors ++ [⟨bound, bound + 1⟩]) := by
  refine List.forall_mem_append.mpr ⟨hdoors.mono (Nat.le_add_right ..), ?_⟩
  simp

end DoorsBelow

/-- A piece names only states below its next free one, which is not lowered. -/
structure Piece.Bounded (piece : Piece W) (next : Nat) : Prop where
  next_le : next ≤ piece.next
  first_lt : piece.first < piece.next
  last_lt : piece.last < piece.next
  ends : EndsBelow piece.next piece.transitions

theorem Piece.Bounded.between {next free : Nat} {transitions : List (Transition W)}
    (hle : next + 2 ≤ free) (hends : EndsBelow free transitions) :
    (⟨next, next + 1, free, transitions⟩ : Piece W).Bounded next where
  next_le := by dsimp only; omega
  first_lt := by dsimp only; omega
  last_lt := by dsimp only; omega
  ends := hends

namespace Unfolding

variable [BranchWeight P] [LogWeight W] [Logarithm P W]

/-- Copies that may follow themselves name states below the next free one if one copy does. -/
theorem wireLoop_bounded {body : Nat → Piece W} {tags : TagSet} {count last next : Nat}
    (hbody : ∀ other, next ≤ other → (body other).Bounded other) (hlast : last < next) :
    (wireLoop (P := P) body tags count last next).Bounded next := by
  induction count generalizing last next with
  | zero =>
      rw [wireLoop]
      exact ⟨le_refl _, hlast, hlast, .nil⟩
  | succ count ih =>
      rw [wireLoop]
      have hhead := hbody next (le_refl _)
      have htail := ih (fun other hle => hbody other (hhead.next_le.trans hle)) hhead.last_lt
      have hlastLt := hlast.trans_le (hhead.next_le.trans htail.next_le)
      have hheadFirst := hhead.first_lt.trans_le htail.next_le
      refine ⟨hhead.next_le.trans htail.next_le, hlastLt, htail.last_lt, ?_⟩
      refine (hhead.ends.mono htail.next_le).append
        (.cons hlastLt hheadFirst (.append ?_ htail.ends))
      split
      · exact .cons (hhead.last_lt.trans_le htail.next_le) hheadFirst .nil
      · exact .nil

mutual

/-- A piece is wired on states that are not numbered yet. -/
theorem wire_bounded (languageWeight : P) {doors : List Doors} (tags : TagSet) {next : Nat}
    (hdoors : DoorsBelow next doors) (unfolding : Unfolding P) :
    (unfolding.wire languageWeight doors tags next : Piece W).Bounded next := by
  match unfolding with
  | .word text =>
      rw [wire]
      exact .between (le_refl _) (.cons (by simp) (by simp) .nil)
  | .sequence [] =>
      rw [wire]
      exact .between (le_refl _) (.epsilon (by omega) (by omega) .nil)
  | .sequence (item :: items) =>
      rw [wire]
      have hhead : (item.wire languageWeight doors tags next : Piece W).Bounded next :=
        wire_bounded languageWeight tags hdoors item
      have htail := wireItems_bounded languageWeight tags (hdoors.mono hhead.next_le)
        hhead.last_lt items
      exact ⟨hhead.next_le.trans htail.next_le, hhead.first_lt.trans_le htail.next_le,
        htail.last_lt, (hhead.ends.mono htail.next_le).append htail.ends⟩
  | .choice branches =>
      rw [wire]
      have hwired : (wireBranches languageWeight doors tags next (next + 1) (next + 2)
          branches : Piece W).Bounded (next + 2) :=
        wireBranches_bounded languageWeight tags (hdoors.mono (Nat.le_add_right ..)) (by simp)
          (by simp) branches
      exact .between hwired.next_le hwired.ends
  | .copies least items =>
      rw [wire]
      have hwired : (wireCopies languageWeight doors tags (next + 1) least next (next + 2)
          items : Piece W).Bounded (next + 2) :=
        wireCopies_bounded languageWeight tags (hdoors.mono (Nat.le_add_right ..)) (by simp)
          (by simp) least items
      have hle := hwired.next_le
      exact .between hle (hwired.ends.append (.epsilon hwired.last_lt (by omega) .nil))
  | .loop least body =>
      rw [wire]
      have hwired : (wireLoop (P := P) (fun next => body.wire languageWeight doors tags next) tags
          (max least 1) next (next + 2) : Piece W).Bounded (next + 2) :=
        wireLoop_bounded
          (fun other hle => wire_bounded languageWeight tags (hdoors.mono (by omega)) body)
          (by simp)
      have hle := hwired.next_le
      refine .between hle (hwired.ends.append (.epsilon hwired.last_lt (by omega) ?_))
      split
      · exact .epsilon (by omega) (by omega) .nil
      · exact .nil
  | .tagged body extra =>
      rw [wire]
      exact wire_bounded languageWeight (tags.insertAll extra) hdoors body
  | .rule target body =>
      rw [wire]
      have hinner : (body.wire languageWeight (doors ++ [⟨next, next + 1⟩]) tags
          (next + 2) : Piece W).Bounded (next + 2) :=
        wire_bounded languageWeight tags hdoors.enter body
      have hle := hinner.next_le
      exact .between hle (hinner.ends.append (.epsilon (by omega) hinner.first_lt
        (.epsilon hinner.last_lt (by omega) .nil)))
  | .recursion depth name exact =>
      rw [wire]
      have hdoor : (doors.getD depth ⟨next, next + 1⟩).entry < next + 2 ∧
          (doors.getD depth ⟨next, next + 1⟩).exit < next + 2 := by
        rw [List.getD_eq_getElem?_getD]
        cases hget : doors[depth]? with
        | none => simp
        | some door =>
            have hbelow := hdoors door (List.mem_of_getElem? hget)
            exact ⟨by simp; omega, by simp; omega⟩
      refine .between (le_refl _) (.epsilon (by omega) hdoor.1 ?_)
      split
      · exact .nil
      · exact .epsilon hdoor.2 (by omega) .nil
  | .fault reason =>
      rw [wire]
      exact .between (le_refl _) .nil

theorem wireItems_bounded (languageWeight : P) {doors : List Doors} (tags : TagSet)
    {last next : Nat} (hdoors : DoorsBelow next doors) (hlast : last < next)
    (items : List (Unfolding P)) :
    (wireItems languageWeight doors tags last next items : Piece W).Bounded next := by
  match items with
  | [] =>
      rw [wireItems]
      exact ⟨le_refl _, hlast, hlast, .nil⟩
  | item :: items =>
      rw [wireItems]
      have hhead : (item.wire languageWeight doors tags next : Piece W).Bounded next :=
        wire_bounded languageWeight tags hdoors item
      have htail := wireItems_bounded languageWeight tags (hdoors.mono hhead.next_le)
        hhead.last_lt items
      have hlastLt := hlast.trans_le (hhead.next_le.trans htail.next_le)
      exact ⟨hhead.next_le.trans htail.next_le, hlastLt, htail.last_lt,
        (hhead.ends.mono htail.next_le).append
          (.cons hlastLt (hhead.first_lt.trans_le htail.next_le) htail.ends)⟩

theorem wireBranches_bounded (languageWeight : P) {doors : List Doors} (tags : TagSet)
    {first last next : Nat} (hdoors : DoorsBelow next doors) (hfirst : first < next)
    (hlast : last < next) (branches : List (P × Unfolding P)) :
    (wireBranches languageWeight doors tags first last next branches : Piece W).Bounded next := by
  match branches with
  | [] =>
      rw [wireBranches]
      exact ⟨le_refl _, hfirst, hlast, .nil⟩
  | (probability, body) :: branches =>
      rw [wireBranches]
      have hhead : (body.wire languageWeight doors tags next : Piece W).Bounded next :=
        wire_bounded languageWeight tags hdoors body
      have htail := wireBranches_bounded languageWeight tags (hdoors.mono hhead.next_le)
        (hfirst.trans_le hhead.next_le) (hlast.trans_le hhead.next_le) branches
      have hle := hhead.next_le.trans htail.next_le
      exact ⟨hle, hfirst.trans_le hle, hlast.trans_le hle,
        (hhead.ends.mono htail.next_le).append
          (.cons (hfirst.trans_le hle) (hhead.first_lt.trans_le htail.next_le)
            (.cons (hhead.last_lt.trans_le htail.next_le) (hlast.trans_le hle) htail.ends))⟩

theorem wireCopies_bounded (languageWeight : P) {doors : List Doors} (tags : TagSet)
    {bypass last next : Nat} (hdoors : DoorsBelow next doors) (hbypass : bypass < next)
    (hlast : last < next) (required : Nat) (items : List (Unfolding P)) :
    (wireCopies languageWeight doors tags bypass required last next items : Piece W).Bounded
      next := by
  match items with
  | [] =>
      rw [wireCopies]
      exact ⟨le_refl _, hlast, hlast, .nil⟩
  | item :: items =>
      rw [wireCopies]
      have hhead : (item.wire languageWeight doors tags next : Piece W).Bounded next :=
        wire_bounded languageWeight tags hdoors item
      have htail := wireCopies_bounded languageWeight tags (hdoors.mono hhead.next_le)
        (hbypass.trans_le hhead.next_le) hhead.last_lt (required - 1) items
      have hle := hhead.next_le.trans htail.next_le
      refine ⟨hle, hlast.trans_le hle, htail.last_lt, (hhead.ends.mono htail.next_le).append
        (.cons (hlast.trans_le hle) (hhead.first_lt.trans_le htail.next_le)
          (.append ?_ htail.ends))⟩
      split
      · exact .cons (hlast.trans_le hle) (hbypass.trans_le hle) .nil
      · exact .nil

end

end Unfolding

end SpeechGrammar
