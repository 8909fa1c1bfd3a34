import SpeechGrammar.Proofs.Source.Keyword

/-!
# What readers take and where they fail

A reader takes a front part off a text, or fails with a back part of the text
left.  For some readers the part that is taken cannot be empty, which is why
calls of one another end: an allowance that grows with the text is enough for
all of them, so no text is nested too deep to be read.  Where rules are read
one after the other, each of them takes something off the text as well,
whether it can be read or not.
-/

namespace SpeechGrammar.Source

def Failure.IsWithin (failure : Failure) (text : List Char) : Prop :=
  ∃ before after, text = before ++ after ∧ failure.remaining = after.length

theorem Failure.IsWithin.append {failure : Failure} {text : List Char}
    (hwithin : failure.IsWithin text) (before : List Char) : failure.IsWithin (before ++ text) := by
  obtain ⟨middle, after, rfl, hremaining⟩ := hwithin
  exact ⟨before ++ middle, after, (List.append_assoc ..).symm, hremaining⟩

/--
A front part is taken off a text, of at least as many characters as goes with the value, or a
failure leaves a back part of the text.  Nothing fails for want of an allowance unless the
allowance is short.
-/
def Advances {α : Type} (left : α → List Char) (least : α → Nat) (isShort : Prop)
    (text : List Char) : Except Failure α → Prop
  | .ok value => ∃ taken, text = taken ++ left value ∧ least value ≤ taken.length
  | .error failure =>
      failure.IsWithin text ∧ (failure.reason = .nestedTooDeep → isShort)

section Advances

variable {α β : Type} {left : α → List Char} {least : α → Nat} {isShort : Prop}
  {text : List Char}

theorem Advances.ok {value : α} {taken : List Char} (htaken : text = taken ++ left value)
    (hleast : least value ≤ taken.length) : Advances left least isShort text (.ok value) :=
  ⟨taken, htaken, hleast⟩

theorem Advances.failAt {before rest : List Char} (htext : text = before ++ rest) {reason : Reason}
    (hreason : reason = .nestedTooDeep → isShort) :
    Advances left least isShort text (Source.failAt rest reason) :=
  ⟨⟨before, rest, htext, rfl⟩, hreason⟩

theorem Advances.failHere {reason : Reason} (hreason : reason = .nestedTooDeep → isShort) :
    Advances left least isShort text (Source.failAt text reason) :=
  .failAt (List.nil_append _).symm hreason

/-- What is read behind a front part is read of the whole text. -/
theorem Advances.behind {before rest : List Char} {lesser : α → Nat} {isShorter : Prop}
    {result : Except Failure α} (htext : text = before ++ rest)
    (hrest : Advances left lesser isShorter rest result)
    (hleast : ∀ value, least value ≤ before.length + lesser value)
    (hshort : text.length = before.length + rest.length → isShorter → isShort) :
    Advances left least isShort text result := by
  subst htext
  cases result with
  | error failure =>
      obtain ⟨hwithin, hreason⟩ := hrest
      exact ⟨hwithin.append before, fun hdeep => hshort List.length_append (hreason hdeep)⟩
  | ok value =>
      obtain ⟨taken, rfl, htaken⟩ := hrest
      refine ⟨before ++ taken, (List.append_assoc ..).symm, ?_⟩
      rw [List.length_append]
      exact (hleast value).trans (Nat.add_le_add_left htaken _)

theorem Advances.imp {lesser : α → Nat} {isShorter : Prop} {result : Except Failure α}
    (hresult : Advances left lesser isShorter text result)
    (hleast : ∀ value, least value ≤ lesser value)
    (hshort : isShorter → isShort) : Advances left least isShort text result :=
  .behind (List.nil_append _).symm hresult
    (fun value => (hleast value).trans (Nat.le_add_left _ _)) fun _ => hshort

/-- What comes of a reading is told by what comes of its value. -/
theorem Advances.bind {leftBehind : β → List Char} {leastBehind : β → Nat}
    {result : Except Failure α} {next : α → Except Failure β}
    (hfirst : Advances left least isShort text result)
    (hnext : ∀ value taken, text = taken ++ left value → least value ≤ taken.length →
      Advances leftBehind leastBehind isShort text (next value)) :
    Advances leftBehind leastBehind isShort text (result >>= next) := by
  cases result with
  | error failure => exact hfirst
  | ok value =>
      obtain ⟨taken, htext, hleast⟩ := hfirst
      exact hnext value taken htext hleast

/-- What is done with a value may be changed if it is the same on what can be left of the text. -/
theorem Advances.bind_congr {result : Except Failure α} {next other : α → Except Failure β}
    (hfirst : Advances left least isShort text result)
    (hnext : ∀ value taken, text = taken ++ left value → least value ≤ taken.length →
      next value = other value) :
    (result >>= next) = (result >>= other) := by
  cases result with
  | error failure => rfl
  | ok value =>
      obtain ⟨taken, htext, hleast⟩ := hfirst
      exact hnext value taken htext hleast

end Advances

/-- Readers that take at least so many characters, and have all the allowance that they need. -/
abbrev Takes {α : Type} (least : Nat) (text : List Char) (result : Except Failure (Taken α)) :
    Prop :=
  Advances Prod.snd (fun _ => least) False text result

/-! ## Tokens -/

theorem exists_skipBlanks (text : List Char) : ∃ gap, text = gap ++ skipBlanks text := by
  rcases exists_gap text with hnil | ⟨gap, -, heq⟩
  · exact ⟨text, by rw [hnil, List.append_nil]⟩
  · exact ⟨gap, heq⟩

theorem exists_keyword? (word text : List Char) :
    ∃ taken, text = taken ++ (keyword? word text).getD text := by
  cases hread : keyword? word text with
  | none => exact ⟨[], rfl⟩
  | some rest =>
      obtain ⟨rfl, -⟩ := keyword?_eq_some_iff.mp hread
      exact ⟨word, rfl⟩

variable {text : List Char}

theorem Takes.behind {α : Type} {before rest : List Char} {least lesser : Nat}
    {result : Except Failure (Taken α)} (htext : text = before ++ rest)
    (hrest : Takes lesser rest result) (hleast : least ≤ before.length + lesser) :
    Takes least text result :=
  Advances.behind htext hrest (fun _ => hleast) fun _ hnever => hnever

theorem advances_character (wanted : Char) (text : List Char) :
    Advances id (fun _ => 1) False text (character wanted text) := by
  unfold character
  split
  · rename_i char rest
    split
    · exact ⟨[char], rfl, Nat.le_refl 1⟩
    · exact .failHere (by simp)
  · exact .failHere (by simp)

theorem takes_run (holds : Char → Bool) (reason : Option Char → Reason)
    (hreason : ∀ found?, reason found? ≠ .nestedTooDeep) (text : List Char) :
    Takes 1 text (run holds reason text) := by
  unfold run
  split
  · exact .failHere fun hdeep => hreason _ hdeep
  · rename_i hsome
    refine .ok List.takeWhile_append_dropWhile.symm ?_
    exact List.length_pos_iff.mpr hsome

theorem takes_bracketedName (text : List Char) : Takes 1 text (bracketedName text) := by
  unfold bracketedName
  apply (advances_character '<' text).bind
  intro rest opening htext hopening
  refine Takes.behind htext (?_ : Takes 0 rest _) hopening
  apply (takes_run isRuleNameCharacter .expectedRuleName (by simp) rest).bind
  intro named taken hrest _
  refine Takes.behind hrest (?_ : Takes 0 named.2 _) (Nat.zero_le _)
  apply (advances_character '>' named.2).bind
  intro after closing hafter _
  exact .ok hafter (Nat.zero_le _)

theorem exists_of_delimited? {close : Char} {inside rest : List Char}
    (hread : delimited? close text = some (inside, rest)) :
    ∃ taken, text = taken ++ rest ∧ 1 ≤ taken.length := by
  obtain ⟨written, -, rfl⟩ := exists_escapes_of_delimited? hread
  exact ⟨written ++ [close], by simp, by simp⟩

theorem takes_quoted (rest : List Char) : Takes 2 ('"' :: rest) (quoted ('"' :: rest) rest) := by
  unfold quoted
  split
  · exact .failHere (by simp)
  · rename_i hread
    split
    · exact .failHere (by simp)
    · obtain ⟨taken, rfl, htaken⟩ := exists_of_delimited? hread
      exact ⟨'"' :: taken, rfl, Nat.succ_le_succ htaken⟩

/-- A tag takes the brace that opens it and more. -/
theorem takes_tag (rest : List Char) : Takes 2 ('\x7b' :: rest) (tag ('\x7b' :: rest) rest) := by
  unfold tag
  split
  · exact .failHere (by simp)
  · rename_i hread
    split
    · exact .failHere (by simp)
    · obtain ⟨taken, rfl, htaken⟩ := exists_of_delimited? hread
      exact ⟨'\x7b' :: taken, rfl, Nat.succ_le_succ htaken⟩

variable {P : Type} [BranchWeight P]

theorem takes_weight? (text : List Char) :
    Takes 0 text (weight? text : Except Failure (Taken (Option P))) := by
  unfold weight?
  split
  · split
    · rename_i hread
      obtain ⟨spelling, -, rfl⟩ := exists_of_weightAfterSlash? hread
      exact ⟨'/' :: spelling, rfl, Nat.zero_le _⟩
    · exact .failHere (by simp)
  · exact .ok (List.nil_append _).symm (Nat.zero_le _)

/-! ## Rule bodies -/

theorem exists_skipBlanks_behind {taken rest : List Char} (htext : text = taken ++ rest) :
    ∃ more, text = more ++ skipBlanks rest ∧ taken.length ≤ more.length := by
  obtain ⟨gap, hgap⟩ := exists_skipBlanks rest
  refine ⟨taken ++ gap, ?_, ?_⟩
  · rw [List.append_assoc, ← hgap]
    exact htext
  · rw [List.length_append]
    exact Nat.le_add_right _ _

theorem exists_character_behind {taken rest after : List Char} {char : Char}
    (htext : text = taken ++ rest) (hskip : skipBlanks rest = char :: after) :
    ∃ more, text = more ++ after ∧ taken.length < more.length := by
  obtain ⟨more, hmore, hlength⟩ := exists_skipBlanks_behind htext
  refine ⟨more ++ [char], ?_, ?_⟩
  · rw [← List.append_cons, ← hskip]
    exact hmore
  · rw [List.length_append]
    exact Nat.lt_succ_of_le hlength

/-- The character that opens a group is charged with what the group needs. -/
theorem Advances.ofGroup {α : Type} {opening : Char} {rest : List Char} {allowance : Nat}
    {result : Except Failure (Taken α)}
    (hresult : Advances Prod.snd (fun _ => 1) (allowance < 6 * rest.length + 6) rest result) :
    Advances Prod.snd (fun _ => 1) (allowance + 1 < 6 * (opening :: rest).length + 1)
      (opening :: rest) result :=
  .behind List.singleton_append.symm hresult (fun _ => Nat.le_add_left _ _)
    fun hlength hshort => by
      rw [List.length_singleton] at hlength
      omega

theorem Advances.ofMark {α : Type} {mark : Char} {rest : List Char} {allowance : Nat}
    {result : Except Failure (Taken α)} (hmark : skipBlanks text = mark :: rest)
    (hresult : Advances Prod.snd (fun _ => 0) (allowance < 6 * rest.length + 1) rest result) :
    Advances Prod.snd (fun _ => 0) (allowance + 1 < 6 * text.length + 1) text result := by
  obtain ⟨taken, htext, htaken⟩ := exists_character_behind (List.nil_append text).symm hmark
  rw [List.length_nil] at htaken
  exact .behind htext hresult (fun _ => Nat.zero_le _) fun hlength hshort => by omega

mutual

theorem advances_branches (allowance : Nat) (text : List Char) :
    Advances Prod.snd (fun _ => 1) (allowance < 6 * text.length + 5) text
      (branches allowance text : Except Failure (Taken (List (Branch P (Expansion P))))) := by
  match allowance with
  | 0 => exact .failHere fun _ => Nat.succ_pos _
  | allowance + 1 =>
      rw [branches]
      obtain ⟨gap, hgap⟩ := exists_skipBlanks text
      apply (Advances.behind hgap (takes_weight? (P := P) _) (fun _ => Nat.zero_le _)
        fun _ hnever => hnever.elim).bind
      intro weighed taken htext _
      apply (Advances.behind htext (advances_sequence allowance weighed.2)
        (fun _ => Nat.le_add_left _ _) fun hlength hshort => by omega).bind
      intro first taken htext hfirst
      dsimp only
      split
      · rename_i rest heq
        obtain ⟨more, htext, hmore⟩ := exists_character_behind htext heq
        apply (Advances.behind htext (advances_branches allowance rest)
          (fun _ => Nat.le_add_left _ _) fun hlength hshort => by omega).bind
        intro others taken htext htaken
        exact .ok htext htaken
      · obtain ⟨more, htext, hmore⟩ := exists_skipBlanks_behind htext
        exact .ok htext (hfirst.trans hmore)

theorem advances_alternation (allowance : Nat) (text : List Char) :
    Advances Prod.snd (fun _ => 1) (allowance < 6 * text.length + 6) text
      (alternation allowance text : Except Failure (Taken (Expansion P))) := by
  match allowance with
  | 0 => exact .failHere fun _ => Nat.succ_pos _
  | allowance + 1 =>
      rw [alternation]
      apply ((advances_branches allowance text).imp (fun _ => Nat.le_refl 1)
        fun hshort => by omega).bind
      intro list taken htext htaken
      exact .ok htext htaken

theorem advances_sequence (allowance : Nat) (text : List Char) :
    Advances Prod.snd (fun _ => 1) (allowance < 6 * text.length + 4) text
      (sequence allowance text : Except Failure (Taken (Expansion P))) := by
  match allowance with
  | 0 => exact .failHere fun _ => Nat.succ_pos _
  | allowance + 1 =>
      rw [sequence]
      apply ((advances_units allowance text).imp (fun _ => Nat.le_refl _)
        fun hshort => by omega).bind
      intro list taken htext htaken
      split
      · exact .failAt htext (by simp)
      · rename_i hsome
        exact .ok htext ((List.length_pos_iff.mpr hsome).trans_le htaken)

/-- Every unit takes something off the text. -/
theorem advances_units (allowance : Nat) (text : List Char) :
    Advances Prod.snd (fun list => list.1.length) (allowance < 6 * text.length + 3) text
      (units allowance text : Except Failure (Taken (List (Expansion P)))) := by
  match allowance with
  | 0 => exact .failHere fun _ => Nat.succ_pos _
  | allowance + 1 =>
      obtain ⟨gap, hgap⟩ := exists_skipBlanks text
      rw [units]
      dsimp only
      split
      · exact .ok hgap (Nat.zero_le _)
      · apply (Advances.behind hgap (advances_unit allowance (skipBlanks text))
          (fun _ => Nat.le_add_left _ _) fun hlength hshort => by omega).bind
        intro first taken htext hfirst
        apply (Advances.behind htext (advances_units allowance first.2)
          (fun others => Nat.add_le_add_right hfirst others.1.length)
          fun hlength hshort => by omega).bind
        intro others taken htext htaken
        exact .ok htext ((Nat.add_comm _ 1).trans_le htaken)

theorem advances_unit (allowance : Nat) (text : List Char) :
    Advances Prod.snd (fun _ => 1) (allowance < 6 * text.length + 2) text
      (unit allowance text : Except Failure (Taken (Expansion P))) := by
  match allowance with
  | 0 => exact .failHere fun _ => Nat.succ_pos _
  | allowance + 1 =>
      rw [unit]
      apply ((advances_atom allowance text).imp (fun _ => Nat.le_refl 1)
        fun hshort => by omega).bind
      intro atom taken htext htaken
      exact Advances.behind htext (advances_marks allowance atom.1 atom.2) (fun _ => htaken)
        fun hlength hshort => by omega

theorem advances_marks (allowance : Nat) (unit : Expansion P) (text : List Char) :
    Advances Prod.snd (fun _ => 0) (allowance < 6 * text.length + 1) text
      (marks allowance unit text) := by
  match allowance with
  | 0 => exact .failHere fun _ => Nat.succ_pos _
  | allowance + 1 =>
      rw [marks]
      split
      · rename_i rest heq
        exact (advances_marks allowance _ rest).ofMark heq
      · rename_i rest heq
        exact (advances_marks allowance _ rest).ofMark heq
      · rename_i rest heq
        exact (advances_marks allowance _ rest).ofMark heq
      · rename_i rest heq
        obtain ⟨gap, hgap⟩ := exists_skipBlanks text
        rw [heq] at hgap
        apply (Advances.behind hgap (takes_tag rest) (fun _ => Nat.le_add_left 2 _)
          fun _ hnever => hnever.elim).bind
        intro tagged taken htext htaken
        exact Advances.behind htext (advances_marks allowance _ tagged.2) (fun _ => Nat.zero_le _)
          fun hlength hshort => by omega
      · exact .ok (List.nil_append _).symm (Nat.zero_le _)

theorem advances_atom (allowance : Nat) (text : List Char) :
    Advances Prod.snd (fun _ => 1) (allowance < 6 * text.length + 1) text
      (atom allowance text : Except Failure (Taken (Expansion P))) := by
  match allowance with
  | 0 => exact .failHere fun _ => Nat.succ_pos _
  | allowance + 1 =>
      unfold atom
      split
      · rename_i rest
        apply (advances_alternation allowance rest).ofGroup.bind
        intro grouped taken htext htaken
        dsimp only
        split
        · rename_i heq
          obtain ⟨more, htext, hmore⟩ := exists_character_behind htext heq
          exact .ok htext (htaken.trans hmore.le)
        · obtain ⟨more, htext, -⟩ := exists_skipBlanks_behind htext
          exact .failAt htext (by simp)
      · rename_i rest
        apply (advances_alternation allowance rest).ofGroup.bind
        intro grouped taken htext htaken
        dsimp only
        split
        · rename_i heq
          obtain ⟨more, htext, hmore⟩ := exists_character_behind htext heq
          exact .ok htext (htaken.trans hmore.le)
        · obtain ⟨more, htext, -⟩ := exists_skipBlanks_behind htext
          exact .failAt htext (by simp)
      · apply ((takes_bracketedName _).imp (fun _ => Nat.le_refl 1) False.elim).bind
        intro named taken htext htaken
        exact .ok htext htaken
      · apply ((takes_quoted _).imp (fun _ => Nat.le_succ 1) False.elim).bind
        intro word taken htext htaken
        exact .ok htext htaken
      · exact .failHere (by simp)
      · exact .failHere (by simp)
      · exact .failHere (by simp)
      · apply ((takes_run isBareCharacter .expectedWord (by simp) text).imp
          (fun _ => Nat.le_refl 1) False.elim).bind
        intro word taken htext htaken
        exact .ok htext htaken

end

theorem takes_body (text : List Char) :
    Takes 1 text (body text : Except Failure (Taken (Expansion P))) := by
  have henough : ¬ allowanceFor text < 6 * text.length + 6 := Nat.lt_irrefl _
  rw [body]
  apply ((advances_alternation (allowanceFor text) text).imp (fun _ => Nat.le_refl 1) henough).bind
  intro read taken htext htaken
  obtain ⟨more, hmore, -⟩ := exists_skipBlanks_behind htext
  dsimp only
  split
  · rename_i rest heq
    obtain ⟨whole, hwhole, hlonger⟩ := exists_character_behind htext heq
    exact .ok hwhole (htaken.trans hlonger.le)
  · rename_i rest heq
    rw [heq] at hmore
    exact .failAt hmore (by simp)
  · rename_i rest heq
    rw [heq] at hmore
    exact .failAt hmore (by simp)
  · exact .failAt hmore (by simp)

/-! ## Headers and heads -/

omit [BranchWeight P]

theorem advances_character_skipBlanks (wanted : Char) (text : List Char) :
    Advances id (fun _ => 1) False text (character wanted (skipBlanks text)) := by
  obtain ⟨gap, hgap⟩ := exists_skipBlanks text
  exact .behind hgap (advances_character wanted _) (fun _ => Nat.le_add_left _ _)
    fun _ hnever => hnever

theorem takes_bracketedName_skipBlanks (text : List Char) :
    Takes 1 text (bracketedName (skipBlanks text)) := by
  obtain ⟨gap, hgap⟩ := exists_skipBlanks text
  exact Takes.behind hgap (takes_bracketedName _) (Nat.le_add_left _ _)

theorem advances_skipMark (text : List Char) :
    Advances id (fun _ => 0) False text (skipMark text) := by
  unfold skipMark
  split
  · exact .ok (List.nil_append _).symm (Nat.zero_le _)
  · rename_i rest hmark
    obtain rfl := dropStart?_eq_some_iff.mp hmark
    split
    · rename_i inside after hcut
      obtain ⟨rfl, -⟩ := Text.eq_append_of_cutFirst? hcut
      exact ⟨"#JSGF".toList ++ (inside ++ [';']), by simp, Nat.zero_le _⟩
    · exact .failHere (by simp)

theorem takes_nameDeclaration (text : List Char) : Takes 0 text (nameDeclaration text) := by
  unfold nameDeclaration
  split
  · exact .ok (List.nil_append _).symm (Nat.zero_le _)
  · rename_i rest hread
    obtain ⟨rfl, -⟩ := keyword?_eq_some_iff.mp hread
    obtain ⟨gap, hgap⟩ := exists_skipBlanks rest
    have hname : Takes 1 (skipBlanks rest) (grammarName (skipBlanks rest)) :=
      takes_run isGrammarNameCharacter .expectedGrammarName (by simp) _
    refine Takes.behind rfl (?_ : Takes 0 rest _) (Nat.zero_le _)
    refine Takes.behind hgap (?_ : Takes 0 (skipBlanks rest) _) (Nat.zero_le _)
    apply hname.bind
    intro named taken htext _
    refine Takes.behind htext (?_ : Takes 0 named.2 _) (Nat.zero_le _)
    apply (advances_character_skipBlanks ';' named.2).bind
    intro after taken htext _
    exact .ok htext (Nat.zero_le _)

theorem takes_importDeclarations (allowance : Nat) (text : List Char) :
    Takes 0 text (importDeclarations allowance text) := by
  induction allowance generalizing text with
  | zero => exact .ok (List.nil_append _).symm (Nat.zero_le _)
  | succ allowance ih =>
      obtain ⟨gap, hgap⟩ := exists_skipBlanks text
      rw [importDeclarations]
      dsimp only
      split
      · exact .ok hgap (Nat.zero_le _)
      · rename_i rest hread
        obtain ⟨hkeyword, -⟩ := keyword?_eq_some_iff.mp hread
        rw [hkeyword, ← List.append_assoc] at hgap
        refine Takes.behind hgap (?_ : Takes 0 rest _) (Nat.zero_le _)
        apply (takes_bracketedName_skipBlanks rest).bind
        intro named taken htext _
        refine Takes.behind htext (?_ : Takes 0 named.2 _) (Nat.zero_le _)
        apply (advances_character_skipBlanks ';' named.2).bind
        intro after taken htext _
        refine Takes.behind htext (?_ : Takes 0 after _) (Nat.zero_le _)
        apply (ih after).bind
        intro others taken htext _
        exact .ok htext (Nat.zero_le _)

theorem takes_header (text : List Char) : Takes 0 text (header text) := by
  obtain ⟨gap, hgap⟩ := exists_skipBlanks text
  unfold header
  refine Takes.behind hgap (?_ : Takes 0 (skipBlanks text) _) (Nat.zero_le _)
  apply (advances_skipMark (skipBlanks text)).bind
  intro unmarked taken htext _
  obtain ⟨more, htext, -⟩ := exists_skipBlanks_behind htext
  refine Takes.behind htext (?_ : Takes 0 (skipBlanks unmarked) _) (Nat.zero_le _)
  apply (takes_nameDeclaration (skipBlanks unmarked)).bind
  intro named taken htext _
  refine Takes.behind htext (?_ : Takes 0 named.2 _) (Nat.zero_le _)
  apply (takes_importDeclarations _ named.2).bind
  intro imported taken htext _
  exact .ok htext (Nat.zero_le _)

theorem takes_head (text : List Char) : Takes 1 text (head text) := by
  obtain ⟨keyword, hkeyword⟩ := exists_keyword? "public".toList text
  unfold head
  refine Takes.behind hkeyword (?_ : Takes 1 ((keyword? _ text).getD text) _)
    (Nat.le_add_left _ _)
  apply (takes_bracketedName_skipBlanks _).bind
  intro named taken htext htaken
  dsimp only
  split
  · exact .failAt htext (by simp)
  · refine Takes.behind htext (?_ : Takes 0 named.2 _) htaken
    apply (advances_character_skipBlanks '=' named.2).bind
    intro after taken htext _
    exact .ok htext (Nat.zero_le _)

/-- Looking for a semicolon drops a front part of a text, and is of use if there is any text. -/
theorem exists_recover (text : List Char) :
    ∃ dropped, text = dropped ++ recover text ∧ (text ≠ [] → 1 ≤ dropped.length) := by
  rw [recover]
  split
  · rename_i before after hcut
    obtain ⟨rfl, -⟩ := Text.eq_append_of_cutFirst? hcut
    exact ⟨before ++ [';'], by simp, fun _ => by simp⟩
  · exact ⟨text, (List.append_nil text).symm, List.length_pos_iff.mpr⟩

end SpeechGrammar.Source
