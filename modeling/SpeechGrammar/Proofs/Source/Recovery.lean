import SpeechGrammar.Proofs.Source.Position

/-!
# Where reading goes on after an error

Where a rule cannot be read, a semicolon is looked for, not from the place of
the error on, but from the start of the rule or of its body.  If no semicolon
had been read there before the error, reading goes on behind the error.
Otherwise it goes back, and may find rules inside what was a quoted word, a tag
or a comment before.

What comes of a reading is a list of events in the order in which they come
about: rules that are kept, and errors.
-/

namespace SpeechGrammar.Source

section Places

variable (P : Type) [BranchWeight P]

def readRule (start : List Char) : Statement P × List Char :=
  match head start with
  | .error failure => (.malformed failure, recover start)
  | .ok (found, afterHead) =>
      match body afterHead with
      | .ok (expansion, rest) => (.definition start.length found (.ok expansion), rest)
      | .error failure => (.definition start.length found (.error failure), recover afterHead)

/-- Why a rule cannot be read, if so, and the text in which a semicolon is then looked for. -/
def failed? (start : List Char) : Option (Failure × List Char) :=
  match head start with
  | .error failure => some (failure, start)
  | .ok (_, afterHead) =>
      match (body afterHead : Except Failure (Taken (Expansion P))) with
      | .ok _ => none
      | .error failure => some (failure, afterHead)

/-- The places where rules start, as the texts that are left there. -/
def starts : Nat → List Char → List (List Char)
  | 0, _ => []
  | allowance + 1, text =>
      let text := skipBlanks text
      if text.isEmpty then [] else text :: starts allowance (readRule P text).2

/-- The places behind the header of a text where rules start. -/
def ruleStarts (text : List Char) : List (List Char) :=
  match header text with
  | .error _ => []
  | .ok (_, rest) => starts P (rest.length + 1) rest

/-- The part of a text that had been read when a failure arose. -/
def readBefore (failure : Failure) (source : List Char) : List Char :=
  source.take (source.length - failure.remaining)

/-- No semicolon had been read before the failure of a rule, if there is one. -/
def IsClear (start : List Char) : Prop :=
  ∀ found ∈ failed? P start, ';' ∉ readBefore found.1 found.2

instance : DecidablePred (IsClear P) := fun start =>
  inferInstanceAs (Decidable (∀ found ∈ failed? P start, ';' ∉ readBefore found.1 found.2))

variable {P}

theorem statements_eq_map (allowance : Nat) (text : List Char) :
    (statements allowance text : List (Statement P)) =
      (starts P allowance text).map fun start => (readRule P start).1 := by
  induction allowance generalizing text with
  | zero => rfl
  | succ allowance ih =>
      rw [statements, starts]
      split
      · rfl
      · rw [List.map_cons, ← ih, readRule]
        cases head (skipBlanks text) with
        | error failure => rfl
        | ok read =>
            dsimp only
            cases (body read.2 : Except Failure (Taken (Expansion P))) with
            | error failure => rfl
            | ok taken => rfl

theorem length_recover_le (source : List Char) : (recover source).length ≤ source.length := by
  cases source with
  | nil => exact Nat.le_refl _
  | cons char rest => exact (length_recover_lt (List.cons_ne_nil char rest)).le

/-- If no semicolon had been read before a failure, the next one is behind it. -/
theorem length_recover_le_remaining {source : List Char} {failure : Failure}
    (hclear : ';' ∉ readBefore failure source) : (recover source).length ≤ failure.remaining := by
  rw [recover]
  split
  · rename_i before after hcut
    obtain ⟨rfl, -⟩ := Text.eq_append_of_cutFirst? hcut
    by_contra hback
    refine hclear (List.mem_take_iff_getElem.mpr ⟨before.length, ?_, ?_⟩)
    · rw [List.length_append, List.length_cons]
      omega
    · simp
  · exact Nat.zero_le _

/-- Where a rule starts its head is bad, or it is read whole, or its body is bad. -/
theorem readRule_cases (start : List Char) :
    (∃ failure, failed? P start = some (failure, start) ∧ failure.remaining ≤ start.length ∧
        readRule P start = (.malformed failure, recover start)) ∨
      (∃ head expansion rest, failed? P start = none ∧ rest.length ≤ start.length ∧
        readRule P start = (.definition start.length head (.ok expansion), rest)) ∨
      ∃ head failure afterHead, failed? P start = some (failure, afterHead) ∧
        failure.remaining ≤ start.length ∧ afterHead.length ≤ start.length ∧
        readRule P start = (.definition start.length head (.error failure), recover afterHead) := by
  have hforward := goesForward_head (Nat.le_refl start.length)
  rw [failed?, readRule]
  cases hhead : head start with
  | error failure =>
      rw [hhead] at hforward
      exact .inl ⟨failure, rfl, hforward, rfl⟩
  | ok read =>
      obtain ⟨found, afterHead⟩ := read
      rw [hhead] at hforward
      have hbehind := goesForward_body (P := P) hforward
      dsimp only
      cases hbody : (body afterHead : Except Failure (Taken (Expansion P))) with
      | ok taken =>
          rw [hbody] at hbehind
          exact .inr (.inl ⟨found, taken.1, taken.2, rfl, hbehind, rfl⟩)
      | error failure =>
          rw [hbody] at hbehind
          exact .inr (.inr ⟨found, failure, afterHead, rfl, hbehind, hforward, rfl⟩)

/-- Reading never goes back behind the start of a rule. -/
theorem length_readRule_le (start : List Char) : (readRule P start).2.length ≤ start.length := by
  obtain ⟨_, -, -, heq⟩ | ⟨_, _, _, -, hrest, heq⟩ | ⟨_, _, afterHead, -, -, hafter, heq⟩ :=
    readRule_cases (P := P) start
  · rw [heq]
    exact length_recover_le start
  · rw [heq]
    exact hrest
  · rw [heq]
    exact (length_recover_le afterHead).trans hafter

/-- Reading goes on behind a failure if no semicolon had been read before. -/
theorem length_readRule_le_remaining {start source : List Char} {failure : Failure}
    (hfailed : failed? P start = some (failure, source))
    (hclear : ';' ∉ readBefore failure source) :
    (readRule P start).2.length ≤ failure.remaining := by
  obtain ⟨_, hfound, -, heq⟩ | ⟨_, _, _, hfound, -⟩ | ⟨_, _, _, hfound, -, -, heq⟩ :=
    readRule_cases (P := P) start
  · obtain ⟨rfl, rfl⟩ := Prod.mk.inj (Option.some.inj (hfailed.symm.trans hfound))
    rw [heq]
    exact length_recover_le_remaining hclear
  · cases hfailed.symm.trans hfound
  · obtain ⟨rfl, rfl⟩ := Prod.mk.inj (Option.some.inj (hfailed.symm.trans hfound))
    rw [heq]
    exact length_recover_le_remaining hclear

theorem length_le_of_mem_starts {allowance : Nat} {text start : List Char}
    (hstart : start ∈ starts P allowance text) : start.length ≤ text.length := by
  induction allowance generalizing text with
  | zero => cases hstart
  | succ allowance ih =>
      rw [starts] at hstart
      split at hstart
      · cases hstart
      · have hskip := length_skipBlanks_le text
        rcases List.mem_cons.mp hstart with rfl | hlater
        · exact hskip
        · exact (ih hlater).trans ((length_readRule_le _).trans hskip)

/-- Every rule starts in the text that is left by those before it. -/
theorem pairwise_starts (allowance : Nat) (text : List Char) :
    (starts P allowance text).Pairwise fun first second =>
      second.length ≤ (readRule P first).2.length := by
  induction allowance generalizing text with
  | zero => exact .nil
  | succ allowance ih =>
      rw [starts]
      split
      · exact .nil
      · exact .cons (fun start hstart => length_le_of_mem_starts hstart) (ih _)

theorem pairwise_ruleStarts (text : List Char) :
    (ruleStarts P text).Pairwise fun first second =>
      second.length ≤ (readRule P first).2.length := by
  unfold ruleStarts
  split
  · exact .nil
  · exact pairwise_starts _ _

end Places

/-! ## Events -/

/-- What comes about in a lenient reading. -/
inductive Event where
  /-- A rule is kept; `remaining` characters are left where it starts. -/
  | rule (name : String) (remaining : Nat)
  /-- An error is reported. -/
  | error (failure : Failure)
  deriving DecidableEq, Repr

namespace Event

/-- The number of characters left where an event is placed. -/
def remaining : Event → Nat
  | .rule _ remaining => remaining
  | .error failure => failure.remaining

def rule? : Event → Option String
  | .rule name _ => some name
  | .error _ => none

def failure? : Event → Option Failure
  | .rule _ _ => none
  | .error failure => some failure

theorem failure?_eq_some_iff {event : Event} {failure : Failure} :
    event.failure? = some failure ↔ event = .error failure := by
  cases event with
  | rule name remaining =>
      constructor
      · rintro ⟨⟩
      · rintro ⟨⟩
  | error found => rw [failure?, Option.some.injEq, error.injEq]

/-- An event is placed in front of another one or at the same place. -/
def AtOrBefore (first second : Event) : Prop := second.remaining ≤ first.remaining

instance : DecidableRel AtOrBefore := fun _ _ => inferInstanceAs (Decidable (_ ≤ _))

/-- What comes of a good head, given the names that are taken. -/
def ofHead (names : List String) (remaining : Nat) (head : Head) : Event :=
  if head.name ∈ names then .error ⟨remaining, .duplicateRule head.name⟩
  else .rule head.name remaining

theorem remaining_ofHead (names : List String) (remaining : Nat) (head : Head) :
    (ofHead names remaining head).remaining = remaining := by
  rw [ofHead]
  split
  · rfl
  · rfl

end Event

section Events

variable {P : Type}

def Statement.events (names : List String) : Statement P → List Event
  | .malformed failure => [.error failure]
  | .definition remaining head (.ok _) => [.ofHead names remaining head]
  | .definition remaining head (.error failure) =>
      [.ofHead names remaining head, .error failure]

/-- What comes of statements, given the names that are taken before them. -/
def eventsFrom : List String → List (Statement P) → List Event
  | _, [] => []
  | names, statement :: rest =>
      statement.events names ++
        eventsFrom (names ++ (statement.events names).filterMap Event.rule?) rest

def events (P : Type) [BranchWeight P] (text : List Char) : List Event :=
  match (document text : Except Failure (Document P)) with
  | .error failure => [.error failure]
  | .ok document => eventsFrom [] document.statements

theorem exists_of_mem_eventsFrom {names : List String} {list : List (Statement P)}
    {event : Event} (hevent : event ∈ eventsFrom names list) :
    ∃ statement ∈ list, ∃ names, event ∈ statement.events names := by
  induction list generalizing names with
  | nil => cases hevent
  | cons statement rest ih =>
      rcases List.mem_append.mp hevent with hhere | hlater
      · exact ⟨statement, List.mem_cons_self .., names, hhere⟩
      · obtain ⟨other, hother, hmem⟩ := ih hlater
        exact ⟨other, List.mem_cons_of_mem _ hother, hmem⟩

variable [BranchWeight P] {start : List Char} {event : Event} {names : List String}

/-- What comes of a rule is not placed in front of it. -/
theorem remaining_le_of_mem_events (hevent : event ∈ (readRule P start).1.events names) :
    event.remaining ≤ start.length := by
  obtain ⟨_, -, hfailure, heq⟩ | ⟨_, _, _, -, -, heq⟩ | ⟨_, _, _, -, hfailure, -, heq⟩ :=
    readRule_cases (P := P) start
  · rw [heq] at hevent
    obtain rfl := List.mem_singleton.mp hevent
    exact hfailure
  · rw [heq] at hevent
    obtain rfl := List.mem_singleton.mp hevent
    exact (Event.remaining_ofHead ..).le
  · rw [heq] at hevent
    obtain rfl | rfl := List.mem_pair.mp hevent
    · exact (Event.remaining_ofHead ..).le
    · exact hfailure

/-- What comes of a rule is in the order of the text. -/
theorem pairwise_events_readRule (start : List Char) (names : List String) :
    ((readRule P start).1.events names).Pairwise Event.AtOrBefore := by
  obtain ⟨_, -, -, heq⟩ | ⟨_, _, _, -, -, heq⟩ | ⟨_, _, _, -, hfailure, -, heq⟩ :=
    readRule_cases (P := P) start
  · rw [heq]
    exact List.pairwise_singleton _ _
  · rw [heq]
    exact List.pairwise_singleton _ _
  · rw [heq]
    refine List.pairwise_pair.mpr ?_
    rw [Event.AtOrBefore, Event.remaining_ofHead]
    exact hfailure

/-- Reading goes on behind what comes of a rule if no semicolon had been read before. -/
theorem le_remaining_of_mem_events (hclear : IsClear P start)
    (hevent : event ∈ (readRule P start).1.events names) :
    (readRule P start).2.length ≤ event.remaining := by
  obtain ⟨failure, hfailed, -, heq⟩ | ⟨_, _, _, -, hrest, heq⟩ |
      ⟨head, failure, afterHead, hfailed, -, -, heq⟩ := readRule_cases (P := P) start
  · have hforward := length_readRule_le_remaining hfailed (hclear _ hfailed)
    rw [heq] at hevent hforward ⊢
    obtain rfl := List.mem_singleton.mp hevent
    exact hforward
  · rw [heq] at hevent ⊢
    obtain rfl := List.mem_singleton.mp hevent
    rw [Event.remaining_ofHead]
    exact hrest
  · have hforward := length_readRule_le_remaining hfailed (hclear _ hfailed)
    have hstart := length_readRule_le (P := P) start
    rw [heq] at hevent hforward hstart ⊢
    obtain rfl | rfl := List.mem_pair.mp hevent
    · rw [Event.remaining_ofHead]
      exact hstart
    · exact hforward

theorem eq_length_of_rule_mem_events {name : String} {remaining : Nat}
    (hevent : .rule name remaining ∈ (readRule P start).1.events names) :
    remaining = start.length := by
  have hofHead : ∀ {head : Head}, .rule name remaining = Event.ofHead names start.length head →
      remaining = start.length := fun heq =>
    (congrArg Event.remaining heq).trans (Event.remaining_ofHead ..)
  obtain ⟨_, -, -, heq⟩ | ⟨_, _, _, -, -, heq⟩ | ⟨_, _, _, -, -, -, heq⟩ :=
    readRule_cases (P := P) start
  · rw [heq] at hevent
    cases List.mem_singleton.mp hevent
  · rw [heq] at hevent
    exact hofHead (List.mem_singleton.mp hevent)
  · rw [heq] at hevent
    obtain hhead | hfailure := List.mem_pair.mp hevent
    · exact hofHead hhead
    · cases hfailure

/-- If reading goes on behind every failure, all that comes about is in the order of the text. -/
theorem pairwise_eventsFrom {list : List (List Char)}
    (hlist : list.Pairwise fun first second => second.length ≤ (readRule P first).2.length)
    (hclear : ∀ start ∈ list, IsClear P start) (names : List String) :
    (eventsFrom names (list.map fun start => (readRule P start).1)).Pairwise
      Event.AtOrBefore := by
  induction hlist generalizing names with
  | nil => exact .nil
  | @cons start list hstart _ ih =>
      obtain ⟨hfirst, hlater⟩ := List.forall_mem_cons.mp hclear
      rw [List.map_cons, eventsFrom, List.pairwise_append]
      refine ⟨pairwise_events_readRule start names, ih hlater _, ?_⟩
      intro first hmem second hsecond
      obtain ⟨_, hstatement, _, hsecond⟩ := exists_of_mem_eventsFrom hsecond
      obtain ⟨other, hother, rfl⟩ := List.mem_map.mp hstatement
      calc second.remaining ≤ other.length := remaining_le_of_mem_events hsecond
        _ ≤ (readRule P start).2.length := hstart other hother
        _ ≤ first.remaining := le_remaining_of_mem_events hfirst hmem

/-- What comes about in a reading comes of the rules that start behind the header. -/
theorem events_eq (text : List Char) :
    events P text = match header text with
      | .error failure => [.error failure]
      | .ok _ => eventsFrom [] ((ruleStarts P text).map fun start => (readRule P start).1) := by
  rw [events, document, ruleStarts]
  cases header text with
  | error failure => rfl
  | ok read => exact congrArg (eventsFrom []) (statements_eq_map _ _)

theorem exists_start_of_rule_mem_events {text : List Char} {name : String} {remaining : Nat}
    (hevent : .rule name remaining ∈ events P text) :
    ∃ start ∈ ruleStarts P text, remaining = start.length := by
  rw [events_eq] at hevent
  split at hevent
  · cases List.mem_singleton.mp hevent
  · obtain ⟨_, hstatement, _, hmem⟩ := exists_of_mem_eventsFrom hevent
    obtain ⟨start, hstart, rfl⟩ := List.mem_map.mp hstatement
    exact ⟨start, hstart, eq_length_of_rule_mem_events hmem⟩

/-- A text is read in order if no semicolon had been read before any of its failures. -/
theorem pairwise_events {text : List Char} (hclear : ∀ start ∈ ruleStarts P text, IsClear P start) :
    (events P text).Pairwise Event.AtOrBefore := by
  rw [events_eq]
  split
  · exact List.pairwise_singleton _ _
  · exact pairwise_eventsFrom (pairwise_ruleStarts text) hclear []

/-- No rule is kept out of what had been read of a rule before its failure. -/
theorem le_or_le_of_failed? {text start source : List Char} {failure : Failure}
    (hstart : start ∈ ruleStarts P text) (hclear : IsClear P start)
    (hfailed : failed? P start = some (failure, source)) {name : String} {remaining : Nat}
    (hevent : .rule name remaining ∈ events P text) :
    start.length ≤ remaining ∨ remaining ≤ failure.remaining := by
  obtain ⟨other, hother, rfl⟩ := exists_start_of_rule_mem_events hevent
  obtain ⟨index, hindex, rfl⟩ := List.getElem_of_mem hstart
  obtain ⟨place, hplace, rfl⟩ := List.getElem_of_mem hother
  have horder := List.pairwise_iff_getElem.mp (pairwise_ruleStarts (P := P) text)
  rcases Nat.lt_trichotomy index place with hbehind | rfl | hbefore
  · have hforward := length_readRule_le_remaining hfailed (hclear _ hfailed)
    exact .inr ((horder index place hindex hplace hbehind).trans hforward)
  · exact .inl (Nat.le_refl _)
  · exact .inl ((horder place index hplace hindex hbefore).trans (length_readRule_le _))

end Events

end SpeechGrammar.Source
