import Mathlib.Data.Bool.AllAny
import Mathlib.Data.List.TakeWhile
import SpeechGrammar.Source.Token

/-!
# Printed weights are read back

A finite weight that is not negative is printed as a plain decimal: digits, and
behind a point more digits if there is a fraction, never an exponent.  On such
a text the reader of weights between slashes and the reader of whole numerals
agree, so a weight whose text reads back as a numeral reads back between
slashes too.
-/

namespace SpeechGrammar

section Runs

variable {holds : Char → Bool} {taken rest : List Char}

theorem takeWhile_append_eq_left (htaken : ∀ char ∈ taken, holds char = true)
    (hrest : ∀ char ∈ rest.head?, holds char = false) :
    (taken ++ rest).takeWhile holds = taken := by
  rw [List.takeWhile_append_of_pos htaken]
  cases rest with
  | nil => exact List.append_nil taken
  | cons char rest =>
      rw [List.takeWhile_cons_of_neg (by simp [hrest char rfl]), List.append_nil]

theorem dropWhile_append_eq_right (htaken : ∀ char ∈ taken, holds char = true)
    (hrest : ∀ char ∈ rest.head?, holds char = false) :
    (taken ++ rest).dropWhile holds = rest := by
  rw [List.dropWhile_append_of_pos htaken]
  cases rest with
  | nil => rfl
  | cons char rest => exact List.dropWhile_cons_of_neg (by simp [hrest char rfl])

end Runs

namespace Numeral

/-- Some digits, at least one. -/
structure AreDigits (digits : List Char) : Prop where
  ne_nil : digits ≠ []
  isDigit : ∀ char ∈ digits, char.isDigit = true

/-- Plain decimals: digits, and a point with more digits if there is a fraction. -/
inductive IsDecimal : List Char → Prop where
  | whole {digits : List Char} (hdigits : AreDigits digits) : IsDecimal digits
  | fraction {digits places : List Char} (hdigits : AreDigits digits)
      (hplaces : AreDigits places) : IsDecimal (digits ++ '.' :: places)

theorem areDigits_digitsOf (value : Nat) : AreDigits (digitsOf value) :=
  ⟨Nat.toDigits_ne_nil, fun _ => Nat.isDigit_of_mem_toDigits (by decide) (by decide)⟩

theorem AreDigits.append_zeros {digits : List Char} (hdigits : AreDigits digits) (zeros : Nat) :
    AreDigits (digits ++ List.replicate zeros '0') := by
  refine ⟨by simp [hdigits.ne_nil], fun char hchar => ?_⟩
  rcases List.mem_append.mp hchar with hchar | hchar
  · exact hdigits.isDigit char hchar
  · rw [List.eq_of_mem_replicate hchar]
    rfl

/-- A point may be put among digits, but neither in front of them nor behind them. -/
theorem isDecimal_split {digits : List Char} (hdigits : ∀ char ∈ digits, char.isDigit = true)
    {places : Nat} (hpositive : 0 < places) (hlength : places < digits.length) :
    IsDecimal (digits.take (digits.length - places) ++
      '.' :: digits.drop (digits.length - places)) := by
  refine .fraction ⟨?_, fun char hchar => hdigits char (List.mem_of_mem_take hchar)⟩
    ⟨?_, fun char hchar => hdigits char (List.mem_of_mem_drop hchar)⟩
  · apply List.ne_nil_of_length_pos
    rw [List.length_take]
    omega
  · apply List.ne_nil_of_length_pos
    rw [List.length_drop]
    omega

theorem isDecimal_pointed {digits : List Char} (hdigits : AreDigits digits) (places : Nat) :
    IsDecimal (pointed (places + 1) digits) := by
  refine isDecimal_split (fun char hchar => ?_) (Nat.succ_pos places) ?_
  · rcases List.mem_append.mp hchar with hchar | hchar
    · rw [List.eq_of_mem_replicate hchar]
      rfl
    · exact hdigits.isDigit char hchar
  · simp only [padded, List.length_append, List.length_replicate]
    omega

/-- A number that is not negative is written as a plain decimal. -/
theorem isDecimal_plainDigits (digits : Nat) (exponent : Int) :
    IsDecimal (plainDigits digits exponent) := by
  cases exponent with
  | ofNat zeros =>
      rw [plainDigits]
      split
      · exact .whole ⟨List.cons_ne_nil _ _, List.all_eq_true.mp rfl⟩
      · exact .whole ((areDigits_digitsOf digits).append_zeros zeros)
  | negSucc places => exact isDecimal_pointed (areDigits_digitsOf digits) places

/-! ## Reading decimals -/

theorem AreDigits.takeDigits {digits rest : List Char} (hdigits : AreDigits digits)
    (hrest : ∀ char ∈ rest.head?, char.isDigit = false) :
    takeDigits (digits ++ rest) = (digits, rest) := by
  rw [Numeral.takeDigits, takeWhile_append_eq_left hdigits.isDigit hrest,
    dropWhile_append_eq_right hdigits.isDigit hrest]

theorem AreDigits.takeSign {digits : List Char} (hdigits : AreDigits digits)
    (rest : List Char) : takeSign (digits ++ rest) = (false, digits ++ rest) := by
  obtain ⟨char, more, rfl⟩ := List.exists_cons_of_ne_nil hdigits.ne_nil
  have hchar := hdigits.isDigit char (List.mem_cons_self ..)
  rw [List.cons_append, Numeral.takeSign]
  · rintro _ ⟨⟩
    cases hchar
  · rintro _ ⟨⟩
    cases hchar

/-- A decimal between slashes reads as what the decimal alone reads as. -/
theorem IsDecimal.takeUnsigned? {text : List Char} (htext : IsDecimal text) (rest : List Char) :
    ∃ digits exponent, ofText? text = some (.finite false digits exponent) ∧
      takeUnsigned? (text ++ '/' :: rest) = some (digits, exponent, '/' :: rest) := by
  have hend : ∀ char ∈ ([] : List Char).head?, char.isDigit = false := fun _ hchar => nomatch hchar
  have hslash : ∀ char ∈ ('/' :: rest).head?, char.isDigit = false := by
    rintro char ⟨⟩
    rfl
  cases htext with
  | whole hdigits =>
      have hread := hdigits.takeDigits hend
      have hsign := hdigits.takeSign []
      have hbefore := hdigits.takeDigits hslash
      rw [List.append_nil] at hread hsign
      obtain ⟨char, more, rfl⟩ := List.exists_cons_of_ne_nil hdigits.ne_nil
      refine ⟨valueOf (char :: more ++ []), 0 - 0, ?_, ?_⟩
      · rw [ofText?, hsign]
        dsimp only
        rw [hread]
        rfl
      · rw [Numeral.takeUnsigned?, hbefore, List.append_nil]
        rfl
  | @fraction digits places hdigits hplaces =>
      have hpoint : ∀ more, ∀ char ∈ ('.' :: more : List Char).head?, char.isDigit = false := by
        rintro more char ⟨⟩
        rfl
      have hread := hplaces.takeDigits hend
      have hsign := hdigits.takeSign ('.' :: places)
      have hwhole := hdigits.takeDigits (hpoint places)
      have hbefore := hplaces.takeDigits hslash
      have hsplit := hdigits.takeDigits (hpoint (places ++ '/' :: rest))
      rw [List.append_nil] at hread
      rw [List.append_assoc, List.cons_append]
      obtain ⟨char, more, rfl⟩ := List.exists_cons_of_ne_nil hdigits.ne_nil
      obtain ⟨place, others, rfl⟩ := List.exists_cons_of_ne_nil hplaces.ne_nil
      refine ⟨valueOf (char :: more ++ place :: others), 0 - (place :: others).length, ?_, ?_⟩
      · rw [ofText?, hsign]
        simp only [hwhole, hread]
        rfl
      · rw [Numeral.takeUnsigned?, hsplit]
        simp only [hbefore]
        rfl

/-- What starts with a minus does not read as a number without one. -/
theorem ofText?_minus_ne (text : List Char) {digits : Nat} {exponent : Int} :
    ofText? ('-' :: text) ≠ some (.finite false digits exponent) := by
  intro hread
  rw [ofText?, takeSign] at hread
  dsimp only at hread
  split at hread
  · rw [ofWord?] at hread
    split at hread
    · cases hread
    · split at hread <;> cases hread
  · cases hread
  · cases hread

/-- Only a number that is not negative is written so that it reads as one. -/
theorem isDecimal_of_ofText?_plain {numeral : Numeral} {digits : Nat} {exponent : Int}
    (hread : ofText? numeral.plain.toList = some (.finite false digits exponent)) :
    IsDecimal numeral.plain.toList := by
  match numeral with
  | .notANumber =>
      have hword : ofText? (plain .notANumber).toList = some .notANumber := by decide
      cases hword.symm.trans hread
  | .infinite true =>
      have hword : ofText? (plain (.infinite true)).toList = some (.infinite true) := by decide
      cases hword.symm.trans hread
  | .infinite false =>
      have hword : ofText? (plain (.infinite false)).toList = some (.infinite false) := by decide
      cases hword.symm.trans hread
  | .finite true digits exponent =>
      rw [plain, String.toList_ofList] at hread
      exact absurd hread (ofText?_minus_ne _)
  | .finite false digits exponent =>
      rw [plain, String.toList_ofList]
      exact isDecimal_plainDigits digits exponent

end Numeral

/-! ## Weights between slashes -/

variable {P : Type} [BranchWeight P]

/-- Weights whose text is a numeral without a sign that stands for the weight. -/
def BranchWeight.ReadsBack (weight : P) : Prop :=
  ∃ digits exponent,
    Numeral.ofText? (text weight).toList = some (.finite false digits exponent) ∧
      ofDecimal digits exponent = weight

instance [DecidableEq P] (weight : P) : Decidable (BranchWeight.ReadsBack weight) :=
  match hread : Numeral.ofText? (BranchWeight.text weight).toList with
  | some (.finite false digits exponent) =>
      decidable_of_iff (BranchWeight.ofDecimal digits exponent = weight)
        ⟨fun heq => ⟨digits, exponent, hread, heq⟩, fun ⟨_, _, hother, heq⟩ => by
          obtain ⟨-, rfl, rfl⟩ := Numeral.finite.inj (Option.some.inj (hread.symm.trans hother))
          exact heq⟩
  | some (.finite true _ _) => isFalse fun ⟨_, _, hother, _⟩ => by cases hread.symm.trans hother
  | some (.infinite _) => isFalse fun ⟨_, _, hother, _⟩ => by cases hread.symm.trans hother
  | some .notANumber => isFalse fun ⟨_, _, hother, _⟩ => by cases hread.symm.trans hother
  | none => isFalse fun ⟨_, _, hother, _⟩ => by cases hread.symm.trans hother

/-- Letters and digits are not blank. -/
theorem isBlank_of_isAlphanum {char : Char} (halphanum : char.isAlphanum = true) :
    Text.isBlank char = false := by
  have hval : char.val.toNat = char.toNat := rfl
  have hupper : char.isUpper = decide (char.val ≥ 'A'.val ∧ char.val ≤ 'Z'.val) := rfl
  have hlower : char.isLower = (decide (char.val ≥ 'a'.val) && decide (char.val ≤ 'z'.val)) := rfl
  have hdigit : char.isDigit = (decide (char.val ≥ '0'.val) && decide (char.val ≤ '9'.val)) := rfl
  change (char.isUpper || char.isLower || char.isDigit) = true at halphanum
  simp only [hupper, hlower, hdigit, Bool.or_eq_true, Bool.and_eq_true, decide_eq_true_eq,
    ge_iff_le, UInt32.le_iff_toNat_le, Char.reduceVal, UInt32.reduceToNat, hval] at halphanum
  simp only [Text.isBlank, Bool.or_eq_false_iff, Bool.and_eq_false_iff, beq_eq_false_iff_ne,
    decide_eq_false_iff_not]
  omega

theorem Numeral.IsDecimal.exists_cons {text : List Char} (htext : IsDecimal text) :
    ∃ char rest, text = char :: rest ∧ char.isDigit = true := by
  cases htext with
  | whole hdigits =>
      obtain ⟨char, rest, rfl⟩ := List.exists_cons_of_ne_nil hdigits.ne_nil
      exact ⟨char, rest, rfl, hdigits.isDigit char (List.mem_cons_self ..)⟩
  | fraction hdigits hplaces =>
      obtain ⟨char, rest, rfl⟩ := List.exists_cons_of_ne_nil hdigits.ne_nil
      exact ⟨char, _, rfl, hdigits.isDigit char (List.mem_cons_self ..)⟩

theorem BranchWeight.ReadsBack.isDecimal {weight : P} (hreads : ReadsBack weight) :
    Numeral.IsDecimal (text weight).toList := by
  obtain ⟨digits, exponent, hread, -⟩ := hreads
  exact Numeral.isDecimal_of_ofText?_plain hread

/-- A weight is read back from between slashes. -/
theorem weight?_append {weight : P} (hreads : BranchWeight.ReadsBack weight)
    (rest : List Char) :
    Source.weight? ('/' :: ((BranchWeight.text weight).toList ++ '/' :: rest)) =
      .ok (some weight, rest) := by
  have hdecimal := hreads.isDecimal
  obtain ⟨digits, exponent, hread, hweight⟩ := hreads
  have htrim : Text.trimStart ((BranchWeight.text weight).toList ++ '/' :: rest) =
      (BranchWeight.text weight).toList ++ '/' :: rest := by
    obtain ⟨char, more, heq, hdigit⟩ := hdecimal.exists_cons
    have halphanum : char.isAlphanum = true := by simp [Char.isAlphanum, hdigit]
    rw [heq]
    exact List.dropWhile_cons_of_neg (by simp [isBlank_of_isAlphanum halphanum])
  obtain ⟨found, power, halone, hslash⟩ := hdecimal.takeUnsigned? rest
  obtain ⟨-, rfl, rfl⟩ := Numeral.finite.inj (Option.some.inj (halone.symm.trans hread))
  have hafter : Source.weightAfterSlash? ((BranchWeight.text weight).toList ++ '/' :: rest) =
      some (weight, rest) := by
    rw [Source.weightAfterSlash?, htrim, hslash, ← hweight]
    rfl
  rw [Source.weight?, hafter]

end SpeechGrammar
