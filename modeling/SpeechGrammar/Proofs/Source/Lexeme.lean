import Mathlib.Data.List.Infix
import SpeechGrammar.Proofs.Printing.Body

/-!
# How a rule body is spelled

A rule body is a list of lexemes: words, names, tags, weights and signs.  This
module says which texts spell a lexeme and which may stand between two of them,
without a word about how a text is read, and then shows that each reader of a
token takes exactly the texts that spell one.

A word without quotes goes on for as long as it can, so two such words never
touch.  Gaps are blanks and closed comments.
-/

namespace SpeechGrammar

namespace Numeral

/-- The texts behind a numeral that scale it, and the power of ten they stand for. -/
inductive IsExponent : List Char → Int → Prop where
  | absent : IsExponent [] 0
  | unsigned {mark : Char} {digits : List Char} (hmark : mark = 'e' ∨ mark = 'E')
      (hdigits : AreDigits digits) : IsExponent (mark :: digits) (valueOf digits)
  | plus {mark : Char} {digits : List Char} (hmark : mark = 'e' ∨ mark = 'E')
      (hdigits : AreDigits digits) : IsExponent (mark :: '+' :: digits) (valueOf digits)
  | minus {mark : Char} {digits : List Char} (hmark : mark = 'e' ∨ mark = 'E')
      (hdigits : AreDigits digits) : IsExponent (mark :: '-' :: digits) (-(valueOf digits : Int))

/-- Numerals without a sign: the text, all digits read as one number, and the power of ten. -/
inductive IsUnsigned : List Char → Nat → Int → Prop where
  | whole {digits scale : List Char} {power : Int} (hdigits : AreDigits digits)
      (hscale : IsExponent scale power) : IsUnsigned (digits ++ scale) (valueOf digits) power
  /-- A point may come first, but not last. -/
  | pointed {digits places scale : List Char} {power : Int}
      (hdigits : ∀ char ∈ digits, char.isDigit = true) (hplaces : AreDigits places)
      (hscale : IsExponent scale power) :
      IsUnsigned (digits ++ '.' :: (places ++ scale)) (valueOf (digits ++ places))
        (power - places.length)

end Numeral

namespace Source

inductive Lexeme (P : Type) where
  | word (text : List Char)
  | name (text : List Char)
  | tag (tag : Tag)
  | weight (weight : P)
  | sign (char : Char)

def signs : List Char := ['|', '(', ')', '[', ']', '*', '+', '?']

/-- Texts that may stand between lexemes: blanks, and comments that end. -/
inductive IsGap : List Char → Prop where
  | nil : IsGap []
  | blank {char : Char} {gap : List Char} (hblank : Text.isBlank char = true) (hgap : IsGap gap) :
      IsGap (char :: gap)
  | line {comment gap : List Char} (hcomment : '\n' ∉ comment) (hgap : IsGap gap) :
      IsGap ('/' :: '/' :: (comment ++ '\n' :: gap))
  | block {comment gap : List Char} (hcomment : ¬ ['*', '/'] <:+: comment) (hgap : IsGap gap) :
      IsGap ('/' :: '*' :: (comment ++ '*' :: '/' :: gap))

/-- How a text is written in front of a closing character: a backslash may stand before any one. -/
inductive Escapes (close : Char) : List Char → List Char → Prop where
  | nil : Escapes close [] []
  | escaped {written inside : List Char} (char : Char) (hrest : Escapes close written inside) :
      Escapes close ('\\' :: char :: written) (char :: inside)
  | plain {char : Char} {written inside : List Char} (hclose : char ≠ close)
      (hbackslash : char ≠ '\\') (hrest : Escapes close written inside) :
      Escapes close (char :: written) (char :: inside)

variable {P : Type}

inductive Spells [BranchWeight P] : Lexeme P → List Char → Prop where
  | bare {word : List Char} (hne : word ≠ [])
      (hbare : ∀ char ∈ word, isBareCharacter char = true) : Spells (.word word) word
  | quoted {written word : List Char} (hwritten : Escapes '"' written word)
      (hsolid : Text.allBlank word = false) : Spells (.word word) ('"' :: (written ++ ['"']))
  | name {name : List Char} (hname : IsName name) : Spells (.name name) ('<' :: (name ++ ['>']))
  | tag {written inside : List Char} (hwritten : Escapes '}' written inside)
      (hsolid : Text.allBlank inside = false) :
      Spells (.tag (Tag.ofText (String.ofList inside))) ('{' :: (written ++ ['}']))
  | weight {left numeral right : List Char} {digits : Nat} {exponent : Int}
      (hleft : Text.allBlank left = true) (hnumeral : Numeral.IsUnsigned numeral digits exponent)
      (hright : Text.allBlank right = true) :
      Spells (.weight (BranchWeight.ofDecimal digits exponent))
        ('/' :: (left ++ (numeral ++ (right ++ ['/']))))
  | sign {char : Char} (hsign : char ∈ signs) : Spells (.sign char) [char]

/-- A text that could be a word without quotes does not go on in what follows it. -/
def KeepsApart (spelling rest : List Char) : Prop :=
  (∀ char ∈ spelling, isBareCharacter char = true) → EndsWord rest

inductive Spelled [BranchWeight P] : List (Lexeme P) → List Char → Prop where
  | nil {gap : List Char} (hgap : IsGap gap) : Spelled [] gap
  | cons {lexeme : Lexeme P} {lexemes : List (Lexeme P)} {gap spelling rest : List Char}
      (hgap : IsGap gap) (hspells : Spells lexeme spelling) (hapart : KeepsApart spelling rest)
      (hrest : Spelled lexemes rest) : Spelled (lexeme :: lexemes) (gap ++ (spelling ++ rest))

/-! ## Gaps -/

theorem skipLine_append {comment : List Char} (hcomment : '\n' ∉ comment) (rest : List Char) :
    skipLine (comment ++ '\n' :: rest) = skipBlanks rest := by
  induction comment with
  | nil => exact if_pos rfl
  | cons char comment ih =>
      rw [List.mem_cons, not_or] at hcomment
      rw [List.cons_append, skipLine, if_neg (Ne.symm hcomment.1)]
      exact ih hcomment.2

theorem skipComment?_append {comment : List Char} (hcomment : ¬ ['*', '/'] <:+: comment)
    (rest : List Char) : skipComment? (comment ++ '*' :: '/' :: rest) = some (skipBlanks rest) := by
  induction comment with
  | nil => rfl
  | cons char comment ih =>
      have hrest := ih fun hinfix => hcomment (List.infix_cons hinfix)
      rw [List.cons_append, skipComment?]
      · exact hrest
      · rintro more rfl heq
        -- The star is followed by the slash only inside the comment.
        cases comment with
        | nil => cases heq
        | cons next comment =>
            obtain ⟨rfl, -⟩ := List.cons.inj heq
            exact hcomment (List.prefix_append ['*', '/'] comment).isInfix

/-- A gap is passed over. -/
theorem IsGap.skipBlanks_append {gap : List Char} (hgap : IsGap gap) (rest : List Char) :
    skipBlanks (gap ++ rest) = skipBlanks rest := by
  induction hgap with
  | nil => rfl
  | blank hblank _ ih => exact (skipBlanks_of_isBlank hblank _).trans ih
  | @line comment gap hcomment _ ih =>
      rw [List.cons_append, List.cons_append, List.append_assoc, List.cons_append, skipBlanks,
        skipLine_append hcomment]
      exact ih
  | @block comment gap hcomment _ ih =>
      rw [List.cons_append, List.cons_append, List.append_assoc, List.cons_append,
        List.cons_append, skipBlanks, skipComment?_append hcomment]
      exact ih

mutual

/-- What is passed over is a gap, unless a comment at the end of the text is never ended. -/
theorem exists_gap (text : List Char) :
    skipBlanks text = [] ∨ ∃ gap, IsGap gap ∧ text = gap ++ skipBlanks text := by
  unfold skipBlanks
  split
  · exact .inl rfl
  · rename_i rest
    refine (exists_gap_skipLine rest).imp_right ?_
    rintro ⟨comment, gap, hcomment, hgap, heq⟩
    exact ⟨_, .line hcomment hgap, by simpa using heq⟩
  · rename_i rest
    cases hskip : skipComment? rest with
    | none => exact .inr ⟨[], .nil, rfl⟩
    | some after =>
        refine (exists_gap_skipComment? rest hskip).imp_right ?_
        rintro ⟨comment, gap, hcomment, hgap, heq⟩
        exact ⟨_, .block hcomment hgap, by simpa using heq⟩
  · rename_i char rest _ _
    cases hblank : Text.isBlank char with
    | false => exact .inr ⟨[], .nil, rfl⟩
    | true =>
        refine (exists_gap rest).imp_right ?_
        rintro ⟨gap, hgap, heq⟩
        exact ⟨_, .blank hblank hgap, congrArg (List.cons char) heq⟩

theorem exists_gap_skipLine (text : List Char) :
    skipLine text = [] ∨ ∃ comment gap, '\n' ∉ comment ∧ IsGap gap ∧
      text = comment ++ '\n' :: (gap ++ skipLine text) := by
  unfold skipLine
  split
  · exact .inl rfl
  · rename_i char rest
    split
    · rename_i hend
      refine (exists_gap rest).imp_right ?_
      rintro ⟨gap, hgap, heq⟩
      exact ⟨[], gap, List.not_mem_nil, hgap, by rw [hend, List.nil_append, ← heq]⟩
    · rename_i hother
      refine (exists_gap_skipLine rest).imp_right ?_
      rintro ⟨comment, gap, hcomment, hgap, heq⟩
      refine ⟨char :: comment, gap, ?_, hgap, congrArg (List.cons char) heq⟩
      rw [List.mem_cons, not_or]
      exact ⟨Ne.symm hother, hcomment⟩

theorem exists_gap_skipComment? (text : List Char) {after : List Char}
    (hskip : skipComment? text = some after) :
    after = [] ∨ ∃ comment gap, ¬ ['*', '/'] <:+: comment ∧ IsGap gap ∧
      text = comment ++ '*' :: '/' :: (gap ++ after) := by
  unfold skipComment? at hskip
  split at hskip
  · cases hskip
  · rename_i rest
    obtain rfl := Option.some.inj hskip
    refine (exists_gap rest).imp_right ?_
    rintro ⟨gap, hgap, heq⟩
    exact ⟨[], gap, by decide, hgap, by rw [List.nil_append, ← heq]⟩
  · rename_i char rest hopen
    refine (exists_gap_skipComment? rest hskip).imp_right ?_
    rintro ⟨comment, gap, hcomment, hgap, heq⟩
    refine ⟨char :: comment, gap, fun hinfix => ?_, hgap, congrArg (List.cons char) heq⟩
    rcases List.infix_cons_iff.mp hinfix with hprefix | hinfix
    · obtain ⟨more, hmore⟩ := hprefix
      obtain ⟨rfl, rfl⟩ := List.cons.inj hmore
      exact hopen _ rfl (heq.trans rfl)
    · exact hcomment hinfix

end

theorem skipBlanks_skipBlanks (text : List Char) :
    skipBlanks (skipBlanks text) = skipBlanks text := by
  rcases exists_gap text with hnil | ⟨gap, hgap, heq⟩
  · rw [hnil, skipBlanks]
  · conv_rhs => rw [heq]
    exact (hgap.skipBlanks_append _).symm

theorem length_skipBlanks_le (text : List Char) : (skipBlanks text).length ≤ text.length := by
  rcases exists_gap text with hnil | ⟨gap, hgap, heq⟩
  · rw [hnil]
    exact Nat.zero_le _
  · conv_rhs => rw [heq]
    rw [List.length_append]
    exact Nat.le_add_left _ _

/-! ## Delimited texts and numerals -/

theorem Escapes.delimited?_append {close : Char} (hescape : close ≠ '\\')
    {written inside : List Char} (hwritten : Escapes close written inside) (rest : List Char) :
    delimited? close (written ++ close :: rest) = some (inside, rest) := by
  induction hwritten with
  | nil =>
      rw [List.nil_append, delimited?]
      · exact if_pos rfl
      · rintro rfl
        contradiction
      · rintro _ _ rfl
        contradiction
  | escaped char _ ih =>
      rw [List.cons_append, List.cons_append, delimited?, ih]
      rfl
  | plain hclose hbackslash _ ih =>
      rw [List.cons_append, delimited?, if_neg hclose, ih]
      · rfl
      · rintro rfl
        contradiction
      · rintro _ _ rfl
        contradiction

theorem exists_escapes_of_delimited? {close : Char} {text inside rest : List Char}
    (hread : delimited? close text = some (inside, rest)) :
    ∃ written, Escapes close written inside ∧ text = written ++ close :: rest := by
  fun_induction delimited? close text generalizing inside with
  | case1 => cases hread
  | case2 => cases hread
  | case3 escaped more ih =>
      obtain ⟨⟨found, after⟩, hfound, heq⟩ := Option.map_eq_some_iff.mp hread
      obtain ⟨rfl, rfl⟩ := Prod.mk.inj heq
      obtain ⟨written, hwritten, rfl⟩ := ih hfound
      exact ⟨_, .escaped escaped hwritten, rfl⟩
  | case4 more hescaped hopen =>
      obtain ⟨rfl, rfl⟩ := Prod.mk.inj (Option.some.inj hread)
      exact ⟨[], .nil, rfl⟩
  | case5 char more hlast hescaped hother ih =>
      obtain ⟨⟨found, after⟩, hfound, heq⟩ := Option.map_eq_some_iff.mp hread
      obtain ⟨rfl, rfl⟩ := Prod.mk.inj heq
      obtain ⟨written, hwritten, rfl⟩ := ih hfound
      refine ⟨_, .plain hother ?_ hwritten, rfl⟩
      rintro rfl
      cases written with
      | nil => exact hescaped close after rfl rfl
      | cons next written => exact hescaped next (written ++ close :: after) rfl rfl

end Source

namespace Numeral

/-- Texts that do not go on with a numeral. -/
def EndsNumeral (rest : List Char) : Prop :=
  ∀ char ∈ rest.head?, char.isDigit = false ∧ char ≠ '.' ∧ char ≠ 'e' ∧ char ≠ 'E'

theorem IsExponent.head_append {scale rest : List Char} {power : Int}
    (hscale : IsExponent scale power) (hrest : EndsNumeral rest) :
    ∀ char ∈ (scale ++ rest).head?, char.isDigit = false ∧ char ≠ '.' := by
  have hmarked : ∀ {mark : Char} {more : List Char}, mark = 'e' ∨ mark = 'E' →
      ∀ char ∈ (mark :: more).head?, char.isDigit = false ∧ char ≠ '.' := by
    rintro mark more hmark char ⟨⟩
    rcases hmark with rfl | rfl
    · decide
    · decide
  cases hscale with
  | absent => exact fun char hchar => ⟨(hrest char hchar).1, (hrest char hchar).2.1⟩
  | unsigned hmark _ => exact hmarked hmark
  | plus hmark _ => exact hmarked hmark
  | minus hmark _ => exact hmarked hmark

theorem IsExponent.takeExponent_append {scale rest : List Char} {power : Int}
    (hscale : IsExponent scale power) (hrest : EndsNumeral rest) :
    takeExponent (scale ++ rest) = (power, rest) := by
  have hread : ∀ (negative : Bool) {mark : Char} {signed digits : List Char},
      mark = 'e' ∨ mark = 'E' → AreDigits digits →
      takeSign signed = (negative, digits ++ rest) →
      takeExponent (mark :: signed) =
        (if negative then -(valueOf digits : Int) else (valueOf digits : Int), rest) := by
    intro negative mark signed digits hmark hdigits hsign
    have htaken := hdigits.takeDigits fun char hchar => (hrest char hchar).1
    obtain ⟨digit, more, rfl⟩ := List.exists_cons_of_ne_nil hdigits.ne_nil
    rw [takeExponent, if_pos (by simpa using hmark), hsign]
    dsimp only
    rw [htaken]
  cases hscale with
  | absent =>
      cases rest with
      | nil => rfl
      | cons char more =>
          obtain ⟨-, -, hsmall, hlarge⟩ := hrest char rfl
          rw [List.nil_append, takeExponent, if_neg (by simp [hsmall, hlarge])]
  | unsigned hmark hdigits => exact hread false hmark hdigits (hdigits.takeSign rest)
  | plus hmark hdigits => exact hread false hmark hdigits rfl
  | minus hmark hdigits => exact hread true hmark hdigits rfl

/-- A numeral is taken whole where it does not go on. -/
theorem IsUnsigned.takeUnsigned?_append {numeral rest : List Char} {digits : Nat} {exponent : Int}
    (hnumeral : IsUnsigned numeral digits exponent) (hrest : EndsNumeral rest) :
    takeUnsigned? (numeral ++ rest) = some (digits, exponent, rest) := by
  cases hnumeral with
  | @whole digits scale power hdigits hscale =>
      have hhead := hscale.head_append hrest
      have htaken := hdigits.takeDigits fun char hchar => (hhead char hchar).1
      obtain ⟨digit, more, rfl⟩ := List.exists_cons_of_ne_nil hdigits.ne_nil
      rw [List.append_assoc, takeUnsigned?, htaken]
      dsimp only
      split
      · rename_i hpointed
        split at hpointed
        · rename_i hpoint
          exact absurd rfl (hhead '.' (by rw [hpoint]; rfl)).2
        · cases hpointed
      · rename_i heq
        cases heq
      · rw [hscale.takeExponent_append hrest]
  | @pointed digits places scale power hdigits hplaces hscale =>
      have hhead := hscale.head_append hrest
      have hpoint : ∀ char ∈ ('.' :: (places ++ (scale ++ rest))).head?, char.isDigit = false := by
        rintro char ⟨⟩
        rfl
      have hwhole : takeDigits (digits ++ '.' :: (places ++ (scale ++ rest))) =
          (digits, '.' :: (places ++ (scale ++ rest))) := by
        rw [takeDigits, takeWhile_append_eq_left hdigits hpoint,
          dropWhile_append_eq_right hdigits hpoint]
      have htaken := hplaces.takeDigits fun char hchar => (hhead char hchar).1
      obtain ⟨place, more, rfl⟩ := List.exists_cons_of_ne_nil hplaces.ne_nil
      rw [List.append_assoc, List.cons_append, List.append_assoc, takeUnsigned?, hwhole]
      simp only [htaken, hscale.takeExponent_append hrest]

theorem isDigit_of_takeDigits {text digits rest : List Char}
    (htaken : takeDigits text = (digits, rest)) :
    (∀ char ∈ digits, char.isDigit = true) ∧ text = digits ++ rest := by
  have happend := takeDigits_append text
  rw [htaken] at happend
  obtain ⟨rfl, -⟩ := Prod.mk.inj htaken
  exact ⟨fun char hchar => List.all_eq_true.mp List.all_takeWhile char hchar, happend.symm⟩

theorem cases_of_takeSign {text rest : List Char} {negative : Bool}
    (htaken : takeSign text = (negative, rest)) :
    negative = false ∧ (text = rest ∨ text = '+' :: rest) ∨
      negative = true ∧ text = '-' :: rest := by
  unfold takeSign at htaken
  split at htaken
  · obtain ⟨rfl, rfl⟩ := Prod.mk.inj htaken
    exact .inr ⟨rfl, rfl⟩
  · obtain ⟨rfl, rfl⟩ := Prod.mk.inj htaken
    exact .inl ⟨rfl, .inr rfl⟩
  · obtain ⟨rfl, rfl⟩ := Prod.mk.inj htaken
    exact .inl ⟨rfl, .inl rfl⟩

theorem exists_of_takeExponent (text : List Char) :
    ∃ scale, IsExponent scale (takeExponent text).1 ∧ text = scale ++ (takeExponent text).2 := by
  cases text with
  | nil => exact ⟨[], .absent, rfl⟩
  | cons mark text =>
      rw [takeExponent]
      split
      · rename_i hmark
        have hmark : mark = 'e' ∨ mark = 'E' := by simpa using hmark
        cases hsign : takeSign text with
        | mk negative signed =>
            cases htaken : takeDigits signed with
            | mk digits rest =>
                obtain ⟨hall, rfl⟩ := isDigit_of_takeDigits htaken
                dsimp only
                rw [htaken]
                cases digits with
                | nil => exact ⟨[], .absent, rfl⟩
                | cons digit more =>
                    have hdigits : AreDigits (digit :: more) := ⟨List.cons_ne_nil _ _, hall⟩
                    rcases cases_of_takeSign hsign with ⟨rfl, rfl | rfl⟩ | ⟨rfl, rfl⟩
                    · exact ⟨_, .unsigned hmark hdigits, rfl⟩
                    · exact ⟨_, .plus hmark hdigits, rfl⟩
                    · exact ⟨_, .minus hmark hdigits, rfl⟩
      · exact ⟨[], .absent, rfl⟩

theorem exists_of_takeUnsigned? {text rest : List Char} {digits : Nat} {exponent : Int}
    (htaken : takeUnsigned? text = some (digits, exponent, rest)) :
    ∃ numeral, IsUnsigned numeral digits exponent ∧ text = numeral ++ rest := by
  rw [takeUnsigned?] at htaken
  cases hwhole : takeDigits text with
  | mk whole afterWhole =>
      obtain ⟨hall, rfl⟩ := isDigit_of_takeDigits hwhole
      simp only [hwhole] at htaken
      split at htaken
      · rename_i fraction afterFraction hpointed
        split at hpointed
        · rename_i tail
          split at hpointed
          · cases hpointed
          · rename_i places after hne hplaces
            obtain ⟨rfl, rfl⟩ := Prod.mk.inj (Option.some.inj hpointed)
            obtain ⟨hdigits, htail⟩ := isDigit_of_takeDigits hplaces
            obtain ⟨scale, hscale, hafter⟩ := exists_of_takeExponent after
            have hplaces : AreDigits places := ⟨hne, hdigits⟩
            simp only [Option.some.injEq, Prod.mk.injEq] at htaken
            obtain ⟨rfl, rfl, rfl⟩ := htaken
            refine ⟨_, .pointed hall hplaces hscale, ?_⟩
            rw [htail, List.append_assoc, List.cons_append, List.append_assoc, ← hafter]
        · cases hpointed
      · cases htaken
      · rename_i hne
        obtain ⟨scale, hscale, hafter⟩ := exists_of_takeExponent afterWhole
        have hdigits : AreDigits _ := ⟨hne, hall⟩
        simp only [Option.some.injEq, Prod.mk.injEq] at htaken
        obtain ⟨rfl, rfl, rfl⟩ := htaken
        refine ⟨_, .whole hdigits hscale, ?_⟩
        rw [List.append_assoc, ← hafter]

theorem IsUnsigned.exists_cons {numeral : List Char} {digits : Nat} {exponent : Int}
    (hnumeral : IsUnsigned numeral digits exponent) :
    ∃ char rest, numeral = char :: rest ∧ (char.isDigit = true ∨ char = '.') := by
  cases hnumeral with
  | whole hdigits _ =>
      obtain ⟨char, rest, rfl⟩ := List.exists_cons_of_ne_nil hdigits.ne_nil
      exact ⟨char, _, rfl, .inl (hdigits.isDigit char (List.mem_cons_self ..))⟩
  | @pointed digits _ _ _ hdigits _ _ =>
      cases digits with
      | nil => exact ⟨'.', _, rfl, .inr rfl⟩
      | cons char rest => exact ⟨char, _, rfl, .inl (hdigits char (List.mem_cons_self ..))⟩

end Numeral

namespace Source

/-! ## Tokens are taken as they are spelled -/

variable {P : Type}

theorem isBlank_of_allBlank {text : List Char} (hblank : Text.allBlank text = true) :
    ∀ char ∈ text, Text.isBlank char = true :=
  List.all_eq_true.mp hblank

theorem trimStart_append {blanks : List Char} (hblanks : Text.allBlank blanks = true)
    {char : Char} (hsolid : Text.isBlank char = false) (rest : List Char) :
    Text.trimStart (blanks ++ char :: rest) = char :: rest := by
  refine dropWhile_append_eq_right (isBlank_of_allBlank hblanks) ?_
  rintro _ ⟨⟩
  exact hsolid

theorem exists_trimStart (text : List Char) :
    ∃ blanks, Text.allBlank blanks = true ∧ text = blanks ++ Text.trimStart text :=
  ⟨_, List.all_takeWhile, List.takeWhile_append_dropWhile.symm⟩

theorem keepsApart_of_stop {char : Char} (hstop : char ∈ wordStops) (more rest : List Char) :
    KeepsApart (char :: more) rest := by
  intro hbare
  exact absurd hstop (isBareCharacter_iff.mp (hbare char (List.mem_cons_self ..))).1

theorem character_eq_ok_iff {wanted : Char} {text rest : List Char} :
    character wanted text = .ok rest ↔ text = wanted :: rest := by
  constructor
  · intro hread
    unfold character at hread
    split at hread
    · split at hread
      · rename_i heq
        rw [heq, Except.ok.inj hread]
      · cases hread
    · cases hread
  · rintro rfl
    exact character_cons wanted rest

theorem run_eq_ok_iff {holds : Char → Bool} {reason : Option Char → Reason}
    {text taken rest : List Char} :
    run holds reason text = .ok (taken, rest) ↔
      taken ≠ [] ∧ (∀ char ∈ taken, holds char = true) ∧
        (∀ char ∈ rest.head?, holds char = false) ∧ text = taken ++ rest := by
  constructor
  · intro hread
    obtain ⟨hne, htaken⟩ := yields_run holds reason text taken rest hread
    unfold run at hread
    split at hread
    · cases hread
    · obtain ⟨rfl, rfl⟩ := Prod.mk.inj (Except.ok.inj hread)
      refine ⟨hne, htaken, fun char hchar => ?_, List.takeWhile_append_dropWhile.symm⟩
      have hend := List.head?_dropWhile_not holds text
      rw [Option.mem_def.mp hchar] at hend
      exact hend
  · rintro ⟨hne, htaken, hrest, rfl⟩
    exact run_append reason hne htaken hrest

theorem bracketedName_eq_ok_iff_append {text name rest : List Char} :
    bracketedName text = .ok (name, rest) ↔
      IsName name ∧ text = '<' :: (name ++ '>' :: rest) := by
  constructor
  · intro hread
    have hname := yields_bracketedName text name rest hread
    obtain ⟨opened, hopen, hread⟩ := bind_eq_ok_iff.mp hread
    obtain ⟨⟨taken, afterName⟩, hrun, hread⟩ := bind_eq_ok_iff.mp hread
    obtain ⟨closed, hclose, hread⟩ := bind_eq_ok_iff.mp hread
    obtain ⟨rfl, rfl⟩ := Prod.mk.inj (Except.ok.inj hread)
    obtain ⟨-, -, -, rfl⟩ := run_eq_ok_iff.mp hrun
    rw [character_eq_ok_iff.mp hopen, character_eq_ok_iff.mp hclose]
    exact ⟨hname, rfl⟩
  · rintro ⟨hname, rfl⟩
    exact bracketedName_append hname rest

variable [BranchWeight P]

def StartsWith (lexeme : Lexeme P) (text rest : List Char) : Prop :=
  ∃ spelling, Spells lexeme spelling ∧ KeepsApart spelling rest ∧ text = spelling ++ rest

theorem bracketedName_eq_ok_iff {text name rest : List Char} :
    bracketedName text = .ok (name, rest) ↔ StartsWith (.name name : Lexeme P) text rest := by
  rw [bracketedName_eq_ok_iff_append]
  constructor
  · rintro ⟨hname, rfl⟩
    exact ⟨_, .name hname, keepsApart_of_stop (by decide) _ _, by simp⟩
  · rintro ⟨_, hspells, -, rfl⟩
    cases hspells with
    | name hname => exact ⟨hname, by simp⟩

theorem quoted_eq_ok_iff {text afterQuote word rest : List Char} :
    quoted text afterQuote = .ok (word, rest) ↔
      StartsWith (.word word : Lexeme P) ('"' :: afterQuote) rest := by
  constructor
  · intro hread
    have hsolid := yields_quoted text afterQuote word rest hread
    unfold quoted at hread
    split at hread
    · cases hread
    · rename_i inside after hinside
      split at hread
      · cases hread
      · obtain ⟨rfl, rfl⟩ := Prod.mk.inj (Except.ok.inj hread)
        obtain ⟨written, hwritten, rfl⟩ := exists_escapes_of_delimited? hinside
        refine ⟨_, .quoted hwritten hsolid, keepsApart_of_stop (by decide) _ _, ?_⟩
        simp
  · rintro ⟨spelling, hspells, -, heq⟩
    cases hspells with
    | bare hne hbare =>
        obtain ⟨char, more, rfl⟩ := List.exists_cons_of_ne_nil hne
        obtain ⟨rfl, -⟩ := List.cons.inj heq
        exact absurd (hbare '"' (List.mem_cons_self ..)) (by decide)
    | @quoted written word hwritten hsolid =>
        rw [List.cons_append, List.append_assoc, List.singleton_append] at heq
        obtain ⟨-, rfl⟩ := List.cons.inj heq
        rw [quoted,
          hwritten.delimited?_append (by decide)]
        exact if_neg (by simp [hsolid])

theorem bareWord_eq_ok_iff {text word rest : List Char} (hquote : text.head? ≠ some '"') :
    bareWord text = .ok (word, rest) ↔ StartsWith (.word word : Lexeme P) text rest := by
  constructor
  · intro hread
    obtain ⟨hne, hbare, hend, heq⟩ := run_eq_ok_iff.mp hread
    exact ⟨word, .bare hne hbare, fun _ => hend, heq⟩
  · rintro ⟨spelling, hspells, hapart, rfl⟩
    cases hspells with
    | bare hne hbare => exact run_append _ hne hbare (hapart hbare)
    | quoted hwritten hsolid => exact absurd rfl hquote

theorem tag_eq_ok_iff {text afterBrace rest : List Char} {tag : Tag} :
    Source.tag text afterBrace = .ok (tag, rest) ↔
      StartsWith (.tag tag : Lexeme P) ('{' :: afterBrace) rest := by
  constructor
  · intro hread
    unfold Source.tag at hread
    split at hread
    · cases hread
    · rename_i inside after hinside
      split at hread
      · cases hread
      · rename_i hsolid
        obtain ⟨rfl, rfl⟩ := Prod.mk.inj (Except.ok.inj hread)
        obtain ⟨written, hwritten, rfl⟩ := exists_escapes_of_delimited? hinside
        refine ⟨_, .tag hwritten (Bool.eq_false_iff.mpr hsolid),
          keepsApart_of_stop (by decide) _ _, ?_⟩
        simp
  · rintro ⟨spelling, hspells, -, heq⟩
    cases hspells with
    | @tag written inside hwritten hsolid =>
        rw [List.cons_append, List.append_assoc, List.singleton_append] at heq
        obtain ⟨-, rfl⟩ := List.cons.inj heq
        rw [Source.tag,
          hwritten.delimited?_append (by decide)]
        exact if_neg (by simp [hsolid])

theorem weightAfterSlash?_append {left numeral right : List Char} {digits : Nat} {exponent : Int}
    (hleft : Text.allBlank left = true) (hnumeral : Numeral.IsUnsigned numeral digits exponent)
    (hright : Text.allBlank right = true) (rest : List Char) :
    weightAfterSlash? (left ++ (numeral ++ (right ++ '/' :: rest))) =
      some ((BranchWeight.ofDecimal digits exponent : P), rest) := by
  have hend : Numeral.EndsNumeral (right ++ '/' :: rest) := by
    cases right with
    | nil =>
        rintro char ⟨⟩
        decide
    | cons blank right =>
        rintro _ ⟨⟩
        have hblank := isBlank_of_allBlank hright blank (List.mem_cons_self ..)
        refine ⟨Bool.eq_false_iff.mpr fun hdigit => ?_, ?_, ?_, ?_⟩
        · rw [isBlank_of_isAlphanum (by simp [Char.isAlphanum, hdigit])] at hblank
          cases hblank
        all_goals
          rintro rfl
          cases hblank
  have hstart : Text.trimStart (left ++ (numeral ++ (right ++ '/' :: rest))) =
      numeral ++ (right ++ '/' :: rest) := by
    obtain ⟨char, more, rfl, hchar⟩ := hnumeral.exists_cons
    refine trimStart_append hleft ?_ _
    rcases hchar with hdigit | rfl
    · exact isBlank_of_isAlphanum (by simp [Char.isAlphanum, hdigit])
    · rfl
  rw [weightAfterSlash?, hstart, hnumeral.takeUnsigned?_append hend]
  dsimp only
  rw [trimStart_append hright rfl]
  rfl

theorem exists_of_weightAfterSlash? {text rest : List Char} {weight : P}
    (hread : weightAfterSlash? text = some (weight, rest)) :
    ∃ spelling, Spells (.weight weight) ('/' :: spelling) ∧ text = spelling ++ rest := by
  obtain ⟨left, hleft, htext⟩ := exists_trimStart text
  unfold weightAfterSlash? at hread
  split at hread
  · cases hread
  · rename_i digits exponent afterNumeral hnumeral
    obtain ⟨numeral, hspelled, hnumeral⟩ := Numeral.exists_of_takeUnsigned? hnumeral
    obtain ⟨right, hright, hafter⟩ := exists_trimStart afterNumeral
    split at hread
    · rename_i after hclose
      obtain ⟨rfl, rfl⟩ := Prod.mk.inj (Option.some.inj hread)
      refine ⟨_, .weight hleft hspelled hright, ?_⟩
      rw [htext, hnumeral, hafter, hclose]
      simp
    · cases hread

theorem weight?_eq_some_iff {text rest : List Char} {weight : P} :
    weight? text = .ok (some weight, rest) ↔ StartsWith (.weight weight) text rest := by
  constructor
  · intro hread
    unfold weight? at hread
    split at hread
    · rename_i afterSlash
      split at hread
      · rename_i found after hweight
        obtain ⟨hfound, rfl⟩ := Prod.mk.inj (Except.ok.inj hread)
        obtain rfl := Option.some.inj hfound
        obtain ⟨spelling, hspells, rfl⟩ := exists_of_weightAfterSlash? hweight
        exact ⟨_, hspells, keepsApart_of_stop (by decide) _ _, rfl⟩
      · cases hread
    · cases hread
  · rintro ⟨_, hspells, -, rfl⟩
    cases hspells with
    | weight hleft hnumeral hright =>
        rw [List.cons_append, List.append_assoc, List.append_assoc, List.append_assoc,
          List.singleton_append, weight?, weightAfterSlash?_append hleft hnumeral hright]

theorem Spells.length_pos {lexeme : Lexeme P} {spelling : List Char}
    (hspells : Spells lexeme spelling) : 0 < spelling.length := by
  cases hspells with
  | bare hne _ => exact List.length_pos_of_ne_nil hne
  | quoted _ _ => exact Nat.succ_pos _
  | name _ => exact Nat.succ_pos _
  | tag _ _ => exact Nat.succ_pos _
  | weight _ _ _ => exact Nat.succ_pos _
  | sign _ => exact Nat.succ_pos _

/-- No gap stands in front of what spells a lexeme. -/
theorem Spells.skipBlanks_append {lexeme : Lexeme P} {spelling : List Char}
    (hspells : Spells lexeme spelling) (rest : List Char) :
    skipBlanks (spelling ++ rest) = spelling ++ rest := by
  cases hspells with
  | bare hne hbare =>
      obtain ⟨char, more, rfl⟩ := List.exists_cons_of_ne_nil hne
      obtain ⟨hstops, hsolid⟩ := isBareCharacter_iff.mp (hbare char (List.mem_cons_self ..))
      refine skipBlanks_cons hsolid ?_ _
      rintro rfl
      exact hstops (by decide)
  | quoted _ _ => exact skipBlanks_cons rfl (by decide) _
  | name _ => exact skipBlanks_cons rfl (by decide) _
  | tag _ _ => exact skipBlanks_cons rfl (by decide) _
  | @weight left _ _ _ _ hleft hnumeral _ =>
      cases left with
      | cons blank left =>
          have hblank := isBlank_of_allBlank hleft blank (List.mem_cons_self ..)
          refine skipBlanks_slash ?_ ?_ _
          · rintro rfl
            cases hblank
          · rintro rfl
            cases hblank
      | nil =>
          obtain ⟨char, more, rfl, hchar⟩ := hnumeral.exists_cons
          refine skipBlanks_slash ?_ ?_ _
          · rintro rfl
            exact absurd hchar (by decide)
          · rintro rfl
            exact absurd hchar (by decide)
  | @sign char hsign =>
      have hplain : ∀ char ∈ signs, Text.isBlank char = false ∧ char ≠ '/' :=
        List.all_iff_forall_prop.mp (by decide)
      exact skipBlanks_cons (hplain char hsign).1 (hplain char hsign).2 rest

end Source

end SpeechGrammar
