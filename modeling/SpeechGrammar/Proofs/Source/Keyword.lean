import SpeechGrammar.Proofs.Grammar.FromText
import SpeechGrammar.Proofs.Source.Lexeme

/-!
# Gaps and keywords

Between the parts of a grammar text there are gaps.  The one at the end of the
text need not be a whole one, as a comment may end with the text.  A keyword is
told from a longer word by what follows it, and no blank, slash or bracket goes
on with a word.
-/

namespace SpeechGrammar.Source

/-- What may stand behind a keyword: nothing that would make it a longer word. -/
def EndsKeyword (rest : List Char) : Prop :=
  ∀ char ∈ rest.head?, Text.isWordCharacter char = false

/-- What may stand at the end of a text: a gap, or one whose last comment ends with the text. -/
inductive IsEnding : List Char → Prop where
  | gap {gap : List Char} (hgap : IsGap gap) : IsEnding gap
  | comment {gap comment : List Char} (hgap : IsGap gap) (hcomment : '\n' ∉ comment) :
      IsEnding (gap ++ '/' :: '/' :: comment)

/-- What follows a gap, or the gap itself, starts as it must if blanks and slashes do. -/
theorem IsGap.forall_head? {gap rest : List Char} (hgap : IsGap gap) {good : Char → Prop}
    (hblank : ∀ char, Text.isBlank char = true → good char) (hslash : good '/')
    (hrest : ∀ char ∈ rest.head?, good char) : ∀ char ∈ (gap ++ rest).head?, good char := by
  cases hgap with
  | nil => exact hrest
  | blank hchar _ =>
      rintro _ ⟨⟩
      exact hblank _ hchar
  | line _ _ =>
      rintro _ ⟨⟩
      exact hslash
  | block _ _ =>
      rintro _ ⟨⟩
      exact hslash

theorem exists_gap_of_skipBlanks_eq {text left : List Char} (hleft : skipBlanks text = left)
    (hne : left ≠ []) : ∃ gap, IsGap gap ∧ text = gap ++ left := by
  subst hleft
  exact (exists_gap text).resolve_left hne

theorem skipBlanks_eq_cons_iff {char : Char} (hsolid : Text.isBlank char = false)
    (hslash : char ≠ '/') {text rest : List Char} :
    skipBlanks text = char :: rest ↔ ∃ gap, IsGap gap ∧ text = gap ++ char :: rest := by
  constructor
  · exact fun hleft => exists_gap_of_skipBlanks_eq hleft (List.cons_ne_nil _ _)
  · rintro ⟨gap, hgap, rfl⟩
    rw [hgap.skipBlanks_append, skipBlanks_cons hsolid hslash]

theorem IsEnding.skipBlanks_eq_nil {text : List Char} (hending : IsEnding text) :
    skipBlanks text = [] := by
  have hline : ∀ comment : List Char, '\n' ∉ comment → skipLine comment = [] := by
    intro comment hcomment
    induction comment with
    | nil => rfl
    | cons char comment ih =>
        rw [List.mem_cons, not_or] at hcomment
        rw [skipLine, if_neg (Ne.symm hcomment.1), ih hcomment.2]
  cases hending with
  | gap hgap => simpa [skipBlanks] using hgap.skipBlanks_append []
  | comment hgap hcomment => rw [hgap.skipBlanks_append, skipBlanks, hline _ hcomment]

theorem IsGap.append_ending {gap ending : List Char} (hgap : IsGap gap)
    (hending : IsEnding ending) : IsEnding (gap ++ ending) := by
  have happend : ∀ {other : List Char}, IsGap other → IsGap (gap ++ other) := by
    intro other hother
    induction hgap with
    | nil => exact hother
    | blank hblank _ ih => exact .blank hblank ih
    | line hcomment _ ih => simpa using IsGap.line hcomment ih
    | block hcomment _ ih => simpa using IsGap.block hcomment ih
  cases hending with
  | gap hother => exact .gap (happend hother)
  | comment hother hcomment => simpa using IsEnding.comment (happend hother) hcomment

mutual

/-- A text of which nothing is left consists of blanks and comments. -/
theorem isEnding_of_skipBlanks (text : List Char) (hnil : skipBlanks text = []) :
    IsEnding text := by
  unfold skipBlanks at hnil
  split at hnil
  · exact .gap .nil
  · rename_i rest
    rcases isEnding_of_skipLine rest hnil with hcomment | ⟨comment, ending, hcomment, hending, rfl⟩
    · exact .comment .nil hcomment
    · simpa using (IsGap.line hcomment .nil).append_ending hending
  · rename_i rest
    cases hskip : skipComment? rest with
    | none => simp [hskip] at hnil
    | some after =>
        rw [hskip, Option.getD_some] at hnil
        subst hnil
        obtain ⟨comment, ending, hcomment, hending, rfl⟩ := isEnding_of_skipComment? rest hskip
        simpa using (IsGap.block hcomment .nil).append_ending hending
  · rename_i char rest _ _
    split at hnil
    · rename_i hblank
      exact (IsGap.blank hblank .nil).append_ending (isEnding_of_skipBlanks rest hnil)
    · cases hnil

theorem isEnding_of_skipLine (text : List Char) (hnil : skipLine text = []) :
    '\n' ∉ text ∨ ∃ comment ending, '\n' ∉ comment ∧ IsEnding ending ∧
      text = comment ++ '\n' :: ending := by
  unfold skipLine at hnil
  split at hnil
  · exact .inl List.not_mem_nil
  · rename_i char rest
    split at hnil
    · rename_i hend
      exact .inr ⟨[], rest, List.not_mem_nil, isEnding_of_skipBlanks rest hnil, by rw [hend]; rfl⟩
    · rename_i hother
      rcases isEnding_of_skipLine rest hnil with hopen | ⟨comment, ending, hcomment, hending, rfl⟩
      · exact .inl (by simp [hopen, Ne.symm hother])
      · exact .inr ⟨char :: comment, ending, by simp [hcomment, Ne.symm hother], hending, rfl⟩

theorem isEnding_of_skipComment? (text : List Char) (hnil : skipComment? text = some []) :
    ∃ comment ending, ¬ ['*', '/'] <:+: comment ∧ IsEnding ending ∧
      text = comment ++ '*' :: '/' :: ending := by
  unfold skipComment? at hnil
  split at hnil
  · cases hnil
  · rename_i rest
    exact ⟨[], rest, by decide, isEnding_of_skipBlanks rest (Option.some.inj hnil), rfl⟩
  · rename_i char rest hopen
    obtain ⟨comment, ending, hcomment, hending, rfl⟩ := isEnding_of_skipComment? rest hnil
    refine ⟨char :: comment, ending, fun hinfix => ?_, hending, rfl⟩
    rcases List.infix_cons_iff.mp hinfix with ⟨more, hmore⟩ | hinfix
    · obtain ⟨rfl, rfl⟩ := List.cons.inj hmore
      exact hopen _ rfl rfl
    · exact hcomment hinfix

end

theorem dropStart?_eq_some_iff {start text rest : List Char} :
    dropStart? start text = some rest ↔ text = start ++ rest := by
  constructor
  · intro hdrop
    induction start generalizing text with
    | nil => exact Option.some.inj hdrop
    | cons wanted start ih =>
        cases text with
        | nil => cases hdrop
        | cons char text =>
            rw [dropStart?] at hdrop
            split at hdrop
            · rename_i hsame
              rw [hsame, ih hdrop]
              rfl
            · cases hdrop
  · rintro rfl
    exact dropStart?_append start rest

/-- A keyword is read where it is spelled and no longer word is. -/
theorem keyword?_eq_some_iff {word text rest : List Char} :
    keyword? word text = some rest ↔ text = word ++ rest ∧ EndsKeyword rest := by
  rw [← dropStart?_eq_some_iff, keyword?]
  split
  · rename_i char more hdrop
    rw [hdrop]
    split
    · rename_i hword
      refine iff_of_false (Option.some_ne_none rest).symm ?_
      rintro ⟨hsome, hends⟩
      obtain rfl := Option.some.inj hsome
      exact Bool.false_ne_true ((hends char rfl).symm.trans hword)
    · rename_i hword
      refine (and_iff_left_of_imp fun hsome => ?_).symm
      obtain rfl := Option.some.inj hsome
      rintro _ ⟨⟩
      exact Bool.eq_false_iff.mpr hword
  · rename_i hshort
    refine (and_iff_left_of_imp fun hsome => ?_).symm
    cases rest with
    | nil =>
        intro char hchar
        cases hchar
    | cons char more => exact absurd hsome (hshort char more)

/-- A keyword is told apart from what follows it by a blank. -/
theorem isWordCharacter_of_isBlank {char : Char} (hblank : Text.isBlank char = true) :
    Text.isWordCharacter char = false := by
  have hfar : ∀ code ∈ [0x85, 0xA0, 0x1680, 0x2000, 0x2001, 0x2002, 0x2003, 0x2004, 0x2005, 0x2006,
      0x2007, 0x2008, 0x2009, 0x200A, 0x2028, 0x2029, 0x202F, 0x205F, 0x3000],
      Text.inRanges Text.wordRanges code = false := by
    decide +kernel
  rw [Text.isWordCharacter]
  split
  · rw [Bool.or_eq_false_iff]
    constructor
    · refine Bool.eq_false_iff.mpr fun halphanum => ?_
      rw [isBlank_of_isAlphanum halphanum] at hblank
      cases hblank
    · rw [beq_eq_false_iff_ne]
      rintro rfl
      cases hblank
  · rename_i hcode
    refine hfar _ ?_
    simp only [Text.isBlank, Bool.or_eq_true, Bool.and_eq_true, decide_eq_true_eq, beq_iff_eq]
      at hblank
    simp only [List.mem_cons, List.not_mem_nil]
    omega

theorem character_skipBlanks_eq_ok_iff {wanted : Char} (hsolid : Text.isBlank wanted = false)
    (hslash : wanted ≠ '/') {text rest : List Char} :
    character wanted (skipBlanks text) = .ok rest ↔
      ∃ gap, IsGap gap ∧ text = gap ++ wanted :: rest := by
  rw [character_eq_ok_iff, skipBlanks_eq_cons_iff hsolid hslash]

theorem bracketedName_skipBlanks_eq_ok_iff {text name rest : List Char} :
    bracketedName (skipBlanks text) = .ok (name, rest) ↔
      ∃ gap, IsGap gap ∧ IsName name ∧ text = gap ++ '<' :: (name ++ '>' :: rest) := by
  rw [bracketedName_eq_ok_iff_append, skipBlanks_eq_cons_iff rfl (by decide)]
  exact ⟨fun ⟨hname, gap, hgap, htext⟩ => ⟨gap, hgap, hname, htext⟩,
    fun ⟨gap, hgap, hname, htext⟩ => ⟨hname, gap, hgap, htext⟩⟩

theorem exists_gap_of_keyword? {word text rest : List Char} (hword : word ≠ [])
    (hkeyword : keyword? word (skipBlanks text) = some rest) :
    ∃ gap, IsGap gap ∧ text = gap ++ skipBlanks text := by
  refine exists_gap_of_skipBlanks_eq rfl ?_
  rw [(keyword?_eq_some_iff.mp hkeyword).1]
  exact List.append_ne_nil_of_left_ne_nil hword _

/-- Behind a keyword and a gap, only a name that could be part of a word matters. -/
theorem endsKeyword_append_iff {gap name rest : List Char} (hne : name ≠ []) :
    EndsKeyword (gap ++ (name ++ rest)) ↔ EndsKeyword (gap ++ name) := by
  have hhead : (gap ++ (name ++ rest)).head? = (gap ++ name).head? := by
    rw [← List.append_assoc]
    exact List.head?_append_of_ne_nil _ (List.append_ne_nil_of_right_ne_nil _ hne)
  rw [EndsKeyword, hhead, EndsKeyword]

theorem endsKeyword_bracket {gap : List Char} (hgap : IsGap gap) (rest : List Char) :
    EndsKeyword (gap ++ '<' :: rest) := by
  refine hgap.forall_head? (fun _ => isWordCharacter_of_isBlank) (by decide) ?_
  rintro _ ⟨⟩
  decide

theorem IsGap.isBlank_of_not_mem {gap : List Char} (hgap : IsGap gap) (hslash : '/' ∉ gap) :
    ∀ char ∈ gap, Text.isBlank char = true := by
  induction hgap with
  | nil => exact fun _ hchar => nomatch hchar
  | blank hblank _ ih =>
      rw [List.mem_cons, not_or] at hslash
      exact List.forall_mem_cons.mpr ⟨hblank, ih hslash.2⟩
  | line _ _ => exact absurd (List.mem_cons_self ..) hslash
  | block _ _ => exact absurd (List.mem_cons_self ..) hslash

end SpeechGrammar.Source
