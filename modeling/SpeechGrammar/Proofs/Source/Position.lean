import SpeechGrammar.Proofs.Source.Progress

/-!
# Reading goes forward

Every reader stops at or behind the place where it starts, whether it takes
something off the text or fails.  A place is the number of characters that are
left there, so going forward is leaving no more of them.  In lines and columns
it is the order from left to right, line by line.
-/

namespace SpeechGrammar.Source

def SyntaxError.AtOrBefore (first second : SyntaxError) : Prop :=
  first.line < second.line ∨ first.line = second.line ∧ first.column ≤ second.column

instance : DecidableRel SyntaxError.AtOrBefore := fun _ _ => inferInstanceAs (Decidable (_ ∨ _))

theorem columnAfter_append (before more : List Char) (hline : '\n' ∉ more) :
    columnAfter (before ++ more) = columnAfter before + more.length := by
  have hplain : more.reverse.takeWhile (· != '\n') = more.reverse := by
    refine List.takeWhile_eq_self_iff.mpr fun char hchar => bne_iff_ne.mpr ?_
    rintro rfl
    exact hline (List.mem_reverse.mp hchar)
  have hall : (more.reverse.takeWhile (· != '\n')).length = more.reverse.length := by rw [hplain]
  rw [columnAfter, columnAfter, List.reverse_append, List.takeWhile_append, if_pos hall,
    List.length_append, List.length_reverse]
  omega

/-- What has less text left is placed behind what has more. -/
theorem Failure.locate_atOrBefore {text : List Char} {first second : Failure}
    (hforward : second.remaining ≤ first.remaining) :
    (first.locate text).AtOrBefore (second.locate text) := by
  have hbefore : text.take (text.length - first.remaining) <+:
      text.take (text.length - second.remaining) :=
    List.take_prefix_take_left (by omega)
  obtain ⟨more, hmore⟩ := hbefore
  simp only [SyntaxError.AtOrBefore, locate, ← hmore, lineAfter, List.count_append]
  by_cases hline : '\n' ∈ more
  · have hpositive : 0 < more.count '\n' := List.count_pos_iff.mpr hline
    exact .inl (by omega)
  · have hnone : more.count '\n' = 0 := List.count_eq_zero.mpr hline
    exact .inr ⟨by omega, by rw [columnAfter_append _ _ hline]; omega⟩

/-- No more is left than a number of characters, where a reading ends or fails. -/
def GoesForward {α : Type} (left : α → List Char) (bound : Nat) : Except Failure α → Prop
  | .ok value => (left value).length ≤ bound
  | .error failure => failure.remaining ≤ bound

section GoesForward

variable {α : Type} {left : α → List Char} {least : α → Nat} {isShort : Prop} {text : List Char}
  {bound : Nat}

/-- What takes a front part off a text goes forward in it. -/
theorem Advances.goesForward {result : Except Failure α}
    (hresult : Advances left least isShort text result) (hbound : text.length ≤ bound) :
    GoesForward left bound result := by
  cases result with
  | error failure =>
      obtain ⟨⟨before, after, rfl, hremaining⟩, -⟩ := hresult
      rw [List.length_append] at hbound
      exact hremaining.trans_le ((Nat.le_add_left _ _).trans hbound)
  | ok value =>
      obtain ⟨taken, rfl, -⟩ := hresult
      rw [List.length_append] at hbound
      exact (Nat.le_add_left _ _).trans hbound

end GoesForward

variable {text : List Char} {bound : Nat}

theorem goesForward_body {P : Type} [BranchWeight P] (hbound : text.length ≤ bound) :
    GoesForward Prod.snd bound (body text : Except Failure (Taken (Expansion P))) :=
  (takes_body text).goesForward hbound

theorem goesForward_head (hbound : text.length ≤ bound) :
    GoesForward Prod.snd bound (head text) :=
  (takes_head text).goesForward hbound

end SpeechGrammar.Source
