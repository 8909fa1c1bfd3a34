import Mathlib.Algebra.BigOperators.Group.List.Basic
import Mathlib.Algebra.Order.Monoid.WithTop
import Mathlib.Order.Bounds.Basic
import SpeechGrammar.Weight.Basic

/-!
# Exact weights

What holds of paths and derivations holds where log weights are added without
rounding.  The first class says which laws that takes: weights form an ordered
commutative monoid, and the least weight is not the sum of greater ones.  The
second adds that scaling by a language weight respects sums.  Numbers with a
least element put below them are of this kind.
-/

namespace SpeechGrammar

/-- Log weights that are added and compared exactly. -/
class ExactWeight (W : Type) extends LogWeight W, AddCommMonoid W, LinearOrder W,
    IsOrderedAddMonoid W where
  floor_le (weight : W) : LogWeight.floor ≤ weight
  floor_lt_add {first second : W} (hfirst : LogWeight.floor < first)
    (hsecond : LogWeight.floor < second) : LogWeight.floor < first + second
  floor_lt_zero : LogWeight.floor < (0 : W)
  order_eq_compare (first second : W) : LogWeight.order first second = compare first second

/-- Logarithms whose scaling by a language weight respects sums. -/
class ExactLogarithm (P W : Type) [BranchWeight P] [ExactWeight W] extends
    Logarithm P W where
  scale_zero (languageWeight : P) : scale languageWeight 0 = 0
  scale_add (languageWeight : P) (first second : W) :
    scale languageWeight (first + second) =
      scale languageWeight first + scale languageWeight second

/-- Numbers with a least element below them add and compare exactly. -/
instance {R : Type} [AddCommGroup R] [LinearOrder R] [IsOrderedAddMonoid R] :
    ExactWeight (WithBot R) where
  __ := (inferInstance : AddCommMonoid (WithBot R))
  __ := (inferInstance : LinearOrder (WithBot R))
  __ := (inferInstance : IsOrderedAddMonoid (WithBot R))
  floor := ⊥
  order := compare
  numeral
    | ⊥ => .infinite true
    | _ => .notANumber
  decideLess := inferInstance
  decideAtMost := inferInstance
  floor_le _ := bot_le
  floor_lt_add hfirst hsecond :=
    bot_lt_iff_ne_bot.mpr (WithBot.add_ne_bot.mpr ⟨hfirst.ne', hsecond.ne'⟩)
  floor_lt_zero := WithBot.bot_lt_coe 0
  order_eq_compare _ _ := rfl

namespace LogWeight

variable {W : Type} [ExactWeight W]

theorem greater_eq_max (first second : W) : greater first second = max first second := by
  unfold greater
  rcases lt_or_ge first second with hless | hless
  · rw [if_pos hless, max_eq_right hless.le]
  · rw [if_neg (not_lt.mpr hless), max_eq_left hless]

/-- The maximum of a list and one more weight is one of them, and above all of them. -/
theorem foldl_greater_isGreatest (first : W) (rest : List W) :
    IsGreatest {weight | weight ∈ first :: rest} (rest.foldl greater first) := by
  induction rest generalizing first with
  | nil =>
      refine ⟨List.mem_singleton_self first, fun weight hweight => ?_⟩
      exact (List.mem_singleton.mp hweight).le
  | cons second rest ih =>
      obtain ⟨hmem, habove⟩ := ih (greater first second)
      rw [List.foldl_cons]
      refine ⟨?_, fun weight hweight => ?_⟩
      · rcases List.mem_cons.mp hmem with hhead | htail
        · rw [hhead, greater_eq_max]
          rcases max_choice first second with hmax | hmax <;> simp [hmax]
        · exact List.mem_cons_of_mem _ (List.mem_cons_of_mem _ htail)
      · have hgreater : greater first second ≤ rest.foldl greater (greater first second) :=
          habove (List.mem_cons_self ..)
        have hmax : max first second ≤ rest.foldl greater (greater first second) := by
          rwa [← greater_eq_max]
        rcases List.mem_cons.mp hweight with rfl | hweight
        · exact (le_max_left _ _).trans hmax
        · rcases List.mem_cons.mp hweight with rfl | hweight
          · exact (le_max_right _ _).trans hmax
          · exact habove (List.mem_cons_of_mem _ hweight)

theorem mem_of_greatest?_eq_some {weights : List W} {greatest : W}
    (hgreatest : greatest? weights = some greatest) : greatest ∈ weights := by
  cases weights with
  | nil => cases hgreatest
  | cons first rest =>
      obtain rfl := Option.some.inj hgreatest
      exact (foldl_greater_isGreatest first rest).1

theorem exists_greatest?_of_mem {weights : List W} {weight : W} (hweight : weight ∈ weights) :
    ∃ greatest, greatest? weights = some greatest ∧ weight ≤ greatest := by
  cases weights with
  | nil => cases hweight
  | cons first rest => exact ⟨_, rfl, (foldl_greater_isGreatest first rest).2 hweight⟩

theorem greatest?_congr {first second : List W}
    (hsame : ∀ weight, weight ∈ first ↔ weight ∈ second) :
    greatest? first = greatest? second := by
  have hle : ∀ {weights others : List W} {greatest : W}, (∀ weight ∈ weights, weight ∈ others) →
      greatest? weights = some greatest →
      ∃ greater, greatest? others = some greater ∧ greatest ≤ greater :=
    fun hsubset hgreatest =>
      exists_greatest?_of_mem (hsubset _ (mem_of_greatest?_eq_some hgreatest))
  have hto : ∀ weight ∈ first, weight ∈ second := fun weight => (hsame weight).mp
  have hback : ∀ weight ∈ second, weight ∈ first := fun weight => (hsame weight).mpr
  cases hfirst : greatest? first with
  | none =>
      cases hsecond : greatest? second with
      | none => rfl
      | some greatest =>
          obtain ⟨greater, hgreater, -⟩ := hle hback hsecond
          exact absurd (hfirst.symm.trans hgreater) (Option.some_ne_none greater).symm
  | some greatest =>
      obtain ⟨other, hother, hless⟩ := hle hto hfirst
      obtain ⟨again, hagain, hmore⟩ := hle hback hother
      obtain rfl := Option.some.inj (hfirst.symm.trans hagain)
      rw [hother, le_antisymm hless hmore]

end LogWeight

end SpeechGrammar
