import SpeechGrammar.Grammar.Basic

/-!
# Going through the rules of a grammar

A cursor stands before the first rule, on a rule, or behind the last one, and
only ever moves forward.  Moved on again and again it comes to each rule once,
in order, and then stays behind the last.
-/

namespace SpeechGrammar

/-- Where going through a list of rules has got to: nowhere yet, or to a place. -/
structure RuleCursor (P : Type) where
  rules : List (Rule P)
  position? : Option Nat := none

namespace RuleCursor

variable {P : Type}

def start (grammar : Grammar P) : RuleCursor P := ⟨grammar.rules, none⟩

def current? (cursor : RuleCursor P) : Option (Rule P) :=
  match cursor.position? with
  | none => none
  | some position => cursor.rules[position]?

/-- Move on by one rule, but not further than behind the last. -/
def advance (cursor : RuleCursor P) : RuleCursor P :=
  let following :=
    match cursor.position? with
    | none => 0
    | some position => position + 1
  { cursor with position? := some (min following cursor.rules.length) }

theorem current?_start (grammar : Grammar P) : (start grammar).current? = none := rfl

theorem repeat_advance (grammar : Grammar P) (times : Nat) :
    Nat.repeat advance (times + 1) (start grammar) =
      ⟨grammar.rules, some (min times grammar.rules.length)⟩ := by
  induction times with
  | zero => rfl
  | succ times ih =>
      have hmove : min (min times grammar.rules.length + 1) grammar.rules.length =
          min (times + 1) grammar.rules.length := by
        omega
      rw [Nat.repeat, ih, advance]
      exact congrArg (fun position => (⟨grammar.rules, some position⟩ : RuleCursor P)) hmove

/-- The first move leads to the first rule, and each further one to the next. -/
theorem current?_repeat_advance (grammar : Grammar P) (times : Nat) :
    (Nat.repeat advance (times + 1) (start grammar)).current? = grammar.rules[times]? := by
  rw [repeat_advance, current?]
  rcases Nat.lt_or_ge times grammar.rules.length with hlt | hge
  · rw [Nat.min_eq_left (Nat.le_of_lt hlt)]
  · rw [Nat.min_eq_right hge, List.getElem?_eq_none hge]
    exact List.getElem?_eq_none (Nat.le_refl _)

/-- As many moves as there are rules lead to all of them, in order. -/
theorem map_current?_repeat_advance (grammar : Grammar P) :
    ((List.range grammar.rules.length).map fun times =>
      (Nat.repeat advance (times + 1) (start grammar)).current?) = grammar.rules.map some := by
  simp only [current?_repeat_advance]
  refine List.ext_getElem (by simp) fun index hleft hright => ?_
  rw [List.length_map] at hright
  simp [hright]

theorem repeat_advance_of_current?_eq_none {grammar : Grammar P} {times : Nat}
    (hdone : (Nat.repeat advance (times + 1) (start grammar)).current? = none) (more : Nat) :
    Nat.repeat advance (times + more + 1) (start grammar) =
      Nat.repeat advance (times + 1) (start grammar) := by
  rw [current?_repeat_advance, List.getElem?_eq_none_iff] at hdone
  rw [repeat_advance, repeat_advance, Nat.min_eq_right hdone,
    Nat.min_eq_right (Nat.le_trans hdone (Nat.le_add_right times more))]

end RuleCursor

end SpeechGrammar
