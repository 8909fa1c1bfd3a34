import SpeechGrammar.Proofs.Source.Recovery

/-!
# Reading comes to an end

Rules are read in rounds, one after the other, until nothing but blanks is
left.  Each round takes something off the text, whether the rule can be read
or a semicolon is looked for instead, so there are no more rounds than there
are characters.  Whatever fails on the way fails with a back part of the text
left, and never because expansions are nested too deep.
-/

namespace SpeechGrammar.Source

/-- An allowance beyond the length of the text makes no difference to how imports are read. -/
theorem importDeclarations_eq {first second : Nat} {text : List Char} (hfirst : text.length < first)
    (hsecond : text.length < second) :
    importDeclarations first text = importDeclarations second text := by
  induction first generalizing second text with
  | zero => exact absurd hfirst (Nat.not_lt_zero _)
  | succ first ih =>
      obtain ⟨second, rfl⟩ := Nat.exists_eq_add_one.mpr (Nat.zero_lt_of_lt hsecond)
      rw [importDeclarations, importDeclarations]
      dsimp only
      cases hread : keyword? "import".toList (skipBlanks text) with
      | none => rfl
      | some rest =>
          dsimp only
          have hlonger : rest.length < text.length := by
            obtain ⟨hkeyword, -⟩ := keyword?_eq_some_iff.mp hread
            have hskip := length_skipBlanks_le text
            rw [hkeyword, List.length_append] at hskip
            exact (Nat.lt_add_of_pos_left (by decide)).trans_le hskip
          apply (takes_bracketedName_skipBlanks rest).bind_congr
          intro named taken hrest _
          apply (advances_character_skipBlanks ';' named.2).bind_congr
          intro after passed hnamed _
          have hafter : after.length ≤ rest.length := by
            rw [hrest, hnamed, id_eq, List.length_append, List.length_append]
            omega
          rw [ih (by omega) (by omega : after.length < second)]

variable (P : Type) [BranchWeight P]

/--
What every reader makes of a text: it takes at least so many characters off the front or fails
with a back part of the text left, and an allowance beyond what the text asks for is enough.
-/
structure ReadersAdvance (text : List Char) : Prop where
  header : Takes 0 text (header text)
  importDeclarations : ∀ allowance, text.length < allowance →
    importDeclarations allowance text = importDeclarations (text.length + 1) text
  head : Takes 1 text (head text)
  bracketedName : Takes 1 text (bracketedName text)
  body : Takes 1 text (body text : Except Failure (Taken (Expansion P)))
  alternation : ∀ allowance ≥ allowanceFor text,
    Takes 1 text (alternation allowance text : Except Failure (Taken (Expansion P)))
  sequence : ∀ allowance ≥ allowanceFor text,
    Takes 1 text (sequence allowance text : Except Failure (Taken (Expansion P)))
  unit : ∀ allowance ≥ allowanceFor text,
    Takes 1 text (unit allowance text : Except Failure (Taken (Expansion P)))
  marks : ∀ allowance ≥ allowanceFor text, ∀ marked : Expansion P,
    Takes 0 text (marks allowance marked text)
  atom : ∀ allowance ≥ allowanceFor text,
    Takes 1 text (atom allowance text : Except Failure (Taken (Expansion P)))
  weight : Takes 0 text (weight? text : Except Failure (Taken (Option P)))
  quoted : Takes 2 ('"' :: text) (quoted ('"' :: text) text)
  tag : Takes 2 ('\x7b' :: text) (tag ('\x7b' :: text) text)

theorem readersAdvance (text : List Char) : ReadersAdvance P text where
  header := takes_header text
  importDeclarations _ hallowance := importDeclarations_eq hallowance (Nat.lt_succ_self _)
  head := takes_head text
  bracketedName := takes_bracketedName text
  body := takes_body text
  alternation allowance hallowance :=
    (advances_alternation allowance text).imp (fun _ => Nat.le_refl 1) (Nat.not_lt.mpr hallowance)
  sequence allowance hallowance :=
    (advances_sequence allowance text).imp (fun _ => Nat.le_refl 1) fun hshort => by
      rw [allowanceFor] at hallowance
      omega
  unit allowance hallowance :=
    (advances_unit allowance text).imp (fun _ => Nat.le_refl 1) fun hshort => by
      rw [allowanceFor] at hallowance
      omega
  marks allowance hallowance marked :=
    (advances_marks allowance marked text).imp (fun _ => Nat.le_refl 0) fun hshort => by
      rw [allowanceFor] at hallowance
      omega
  atom allowance hallowance :=
    (advances_atom allowance text).imp (fun _ => Nat.le_refl 1) fun hshort => by
      rw [allowanceFor] at hallowance
      omega
  weight := takes_weight? text
  quoted := takes_quoted text
  tag := takes_tag text

/-! ## Rounds -/

/-- Rules are read in rounds to the end of a text, and every round takes something off the text. -/
inductive RuleRounds : List Char → List (Statement P) → Prop where
  | done {text : List Char} (hend : skipBlanks text = []) : RuleRounds text []
  | round {text taken rest : List Char} {statement : Statement P} {others : List (Statement P)}
      (hread : readRule P (skipBlanks text) = (statement, rest))
      (htaken : skipBlanks text = taken ++ rest) (hne : taken ≠ [])
      (hrest : RuleRounds rest others) :
      RuleRounds text (statement :: others)

variable {P}

/-- What is read where a rule starts takes something off the text. -/
theorem exists_readRule {start : List Char} (hstart : start ≠ []) :
    ∃ taken, start = taken ++ (readRule P start).2 ∧ taken ≠ [] := by
  have hhead := takes_head start
  rw [readRule]
  cases hread : head start with
  | error failure =>
      obtain ⟨dropped, heq, hdropped⟩ := exists_recover start
      exact ⟨dropped, heq, List.length_pos_iff.mp (hdropped hstart)⟩
  | ok read =>
      obtain ⟨found, afterHead⟩ := read
      rw [hread] at hhead
      obtain ⟨taken, rfl, htaken⟩ := hhead
      have hbody := takes_body (P := P) afterHead
      dsimp only
      cases hread : (body afterHead : Except Failure (Taken (Expansion P))) with
      | error failure =>
          obtain ⟨dropped, heq, -⟩ := exists_recover afterHead
          refine ⟨taken ++ dropped, ?_, ?_⟩
          · rw [List.append_assoc, ← heq]
          · exact List.append_ne_nil_of_left_ne_nil (List.length_pos_iff.mp htaken) dropped
      | ok read =>
          rw [hread] at hbody
          obtain ⟨more, rfl, -⟩ := hbody
          refine ⟨taken ++ more, (List.append_assoc ..).symm, ?_⟩
          exact List.append_ne_nil_of_left_ne_nil (List.length_pos_iff.mp htaken) more

/-- An allowance beyond the length of the text is enough for all rounds. -/
theorem rounds_statements {allowance : Nat} {text : List Char}
    (hallowance : text.length < allowance) :
    RuleRounds P text (statements allowance text) := by
  induction allowance generalizing text with
  | zero => exact absurd hallowance (Nat.not_lt_zero _)
  | succ allowance ih =>
      rw [statements_eq_map, starts]
      split
      · rename_i hend
        exact .done (List.isEmpty_iff.mp hend)
      · rename_i hmore
        have hsome : skipBlanks text ≠ [] := fun hnil => hmore (List.isEmpty_iff.mpr hnil)
        obtain ⟨taken, htaken, hne⟩ := exists_readRule (P := P) hsome
        have hshorter : (readRule P (skipBlanks text)).2.length < allowance := by
          have hskip := length_skipBlanks_le text
          rw [htaken, List.length_append] at hskip
          have hpos := List.length_pos_iff.mpr hne
          omega
        rw [List.map_cons, ← statements_eq_map]
        exact .round rfl htaken hne (ih hshorter)

theorem RuleRounds.length_le {text : List Char} {list : List (Statement P)}
    (hrounds : RuleRounds P text list) :
    list.length ≤ text.length := by
  induction hrounds with
  | done hend => exact Nat.zero_le _
  | @round text taken rest statement others hread htaken hne hrest ih =>
      have hskip := length_skipBlanks_le text
      rw [htaken, List.length_append] at hskip
      have hpos := List.length_pos_iff.mpr hne
      rw [List.length_cons]
      omega

/-- Behind the header of a text that has one, rules are read in rounds to the end of the text. -/
theorem rounds_of_document {text : List Char} {read : Document P}
    (hread : document text = .ok read) :
    ∃ rest, header text = .ok (read.header, rest) ∧ RuleRounds P rest read.statements := by
  rw [document] at hread
  cases hheader : header text with
  | error failure =>
      rw [hheader] at hread
      cases hread
  | ok found =>
      rw [hheader] at hread
      obtain rfl := Except.ok.inj hread
      exact ⟨found.2, rfl, rounds_statements (Nat.lt_succ_self _)⟩

/-! ## Failures -/

/-- A failure that leaves a back part of a text, and not for want of an allowance. -/
structure Failure.IsReal (failure : Failure) (text : List Char) : Prop where
  isWithin : failure.IsWithin text
  reason_ne : failure.reason ≠ .nestedTooDeep

theorem Failure.IsReal.append {failure : Failure} {text : List Char} (hreal : failure.IsReal text)
    (before : List Char) : failure.IsReal (before ++ text) :=
  ⟨hreal.isWithin.append before, hreal.reason_ne⟩

/-- Whatever fails without an allowance, or with enough of it, fails for a real reason. -/
theorem Advances.isReal {α : Type} {left : α → List Char} {least : α → Nat} {text : List Char}
    {failure : Failure} (hfailed : Advances left least False text (.error failure)) :
    failure.IsReal text :=
  ⟨hfailed.1, hfailed.2⟩

variable {start : List Char} {names : List String}

theorem isReal_of_mem_ofHead {failure : Failure} {head : Head}
    (hevent : .error failure = Event.ofHead names start.length head) : failure.IsReal start := by
  unfold Event.ofHead at hevent
  split at hevent
  · obtain rfl := Event.error.inj hevent
    exact ⟨⟨[], start, rfl, rfl⟩, by simp⟩
  · cases hevent

/-- What fails where a rule starts leaves a back part of what is there. -/
theorem isReal_of_mem_readRule {failure : Failure}
    (hevent : .error failure ∈ (readRule P start).1.events names) : failure.IsReal start := by
  have hhead := takes_head start
  rw [readRule] at hevent
  cases hread : head start with
  | error found =>
      rw [hread] at hevent hhead
      obtain rfl := Event.error.inj (List.mem_singleton.mp hevent)
      exact hhead.isReal
  | ok read =>
      obtain ⟨found, afterHead⟩ := read
      rw [hread] at hevent hhead
      obtain ⟨taken, htaken, -⟩ := hhead
      have hbody := takes_body (P := P) afterHead
      dsimp only at hevent
      cases hread : (body afterHead : Except Failure (Taken (Expansion P))) with
      | error found =>
          rw [hread] at hevent hbody
          obtain hhere | hbehind := List.mem_pair.mp hevent
          · exact isReal_of_mem_ofHead hhere
          · obtain rfl := Event.error.inj hbehind
            rw [htaken]
            exact hbody.isReal.append taken
      | ok read =>
          rw [hread] at hevent
          exact isReal_of_mem_ofHead (List.mem_singleton.mp hevent)

/-- Rules start where a back part of the text is left. -/
theorem exists_of_mem_starts {allowance : Nat} {text : List Char}
    (hstart : start ∈ starts P allowance text) : ∃ before, text = before ++ start := by
  induction allowance generalizing text with
  | zero => cases hstart
  | succ allowance ih =>
      obtain ⟨gap, hgap⟩ := exists_skipBlanks text
      rw [starts] at hstart
      split at hstart
      · cases hstart
      · rename_i hmore
        rcases List.mem_cons.mp hstart with rfl | hlater
        · exact ⟨gap, hgap⟩
        · have hsome : skipBlanks text ≠ [] := fun hnil => hmore (List.isEmpty_iff.mpr hnil)
          obtain ⟨taken, htaken, -⟩ := exists_readRule (P := P) hsome
          obtain ⟨before, hbefore⟩ := ih hlater
          refine ⟨gap ++ (taken ++ before), ?_⟩
          rw [List.append_assoc, List.append_assoc, ← hbefore, ← htaken, ← hgap]

/-- Whatever fails in the reading of a text leaves a back part of it, for a real reason. -/
theorem isReal_of_mem_events {text : List Char} {failure : Failure}
    (hevent : .error failure ∈ events P text) : failure.IsReal text := by
  have hheader := takes_header text
  rw [events_eq, ruleStarts] at hevent
  cases hread : header text with
  | error found =>
      rw [hread] at hevent hheader
      obtain rfl := Event.error.inj (List.mem_singleton.mp hevent)
      exact hheader.isReal
  | ok read =>
      obtain ⟨found, rest⟩ := read
      rw [hread] at hevent hheader
      obtain ⟨taken, rfl, -⟩ := hheader
      obtain ⟨statement, hstatement, names, hmem⟩ := exists_of_mem_eventsFrom hevent
      obtain ⟨start, hstart, rfl⟩ := List.mem_map.mp hstatement
      obtain ⟨before, rfl⟩ := exists_of_mem_starts hstart
      exact ((isReal_of_mem_readRule hmem).append before).append taken

end SpeechGrammar.Source
