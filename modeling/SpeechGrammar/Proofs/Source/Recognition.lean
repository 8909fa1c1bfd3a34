import SpeechGrammar.Proofs.Source.Phrase

/-!
# The reader of rule bodies recognises its grammar

A rule body is read as an expansion exactly when it derives it.  Both
directions go reader by reader: what a reader takes is a phrase of its kind,
and a phrase is taken where nothing behind it could go on with it.

The readers skip the blanks in front of what they take, some of them also those
behind it, so the two ends of a run of lexemes are only told up to a gap.
-/

namespace SpeechGrammar.Source

variable {P : Type} [BranchWeight P]

/-- Lexemes at the front of a text and the rest behind them, both up to a gap. -/
inductive Front : List (Lexeme P) → List Char → List Char → Prop where
  | nil {text rest : List Char} (hgap : skipBlanks text = skipBlanks rest) : Front [] text rest
  | cons {lexeme : Lexeme P} {lexemes : List (Lexeme P)} {text after rest : List Char}
      (hstarts : StartsWith lexeme (skipBlanks text) after) (hlexemes : Front lexemes after rest) :
      Front (lexeme :: lexemes) text rest

theorem Front.congr {lexemes : List (Lexeme P)} {text other rest last : List Char}
    (hfront : Front lexemes text rest) (htext : skipBlanks other = skipBlanks text)
    (hrest : skipBlanks rest = skipBlanks last) : Front lexemes other last := by
  induction hfront generalizing other with
  | nil hgap => exact .nil (htext.trans (hgap.trans hrest))
  | cons hstarts _ ih =>
      rw [← htext] at hstarts
      exact .cons hstarts (ih rfl hrest)

theorem front_append_iff {first second : List (Lexeme P)} {text rest : List Char} :
    Front (first ++ second) text rest ↔ ∃ mid, Front first text mid ∧ Front second mid rest := by
  constructor
  · intro hfront
    induction first generalizing text with
    | nil => exact ⟨text, .nil rfl, hfront⟩
    | cons lexeme first ih =>
        cases hfront with
        | cons hstarts hlexemes =>
            obtain ⟨mid, hfirst, hsecond⟩ := ih hlexemes
            exact ⟨mid, .cons hstarts hfirst, hsecond⟩
  · rintro ⟨mid, hfirst, hsecond⟩
    induction hfirst with
    | nil hgap => exact hsecond.congr hgap rfl
    | cons hstarts _ ih => exact .cons hstarts (ih hsecond)

theorem front_singleton_iff {lexeme : Lexeme P} {text rest : List Char} :
    Front [lexeme] text rest ↔
      ∃ after, StartsWith lexeme (skipBlanks text) after ∧ skipBlanks after = skipBlanks rest := by
  constructor
  · intro hfront
    cases hfront with
    | cons hstarts hlexemes =>
        cases hlexemes with
        | nil hgap => exact ⟨_, hstarts, hgap⟩
  · rintro ⟨after, hstarts, hgap⟩
    exact .cons hstarts (.nil hgap)

/-- A sign stands by itself. -/
theorem startsWith_sign_iff {char : Char} {text rest : List Char} :
    StartsWith (.sign char : Lexeme P) text rest ↔ char ∈ signs ∧ text = char :: rest := by
  constructor
  · rintro ⟨_, hspells, -, rfl⟩
    cases hspells with
    | sign hsign => exact ⟨hsign, rfl⟩
  · rintro ⟨hsign, rfl⟩
    have hstops : ∀ char ∈ signs, char ∈ wordStops := List.all_iff_forall_prop.mp (by decide)
    exact ⟨[char], .sign hsign, keepsApart_of_stop (hstops char hsign) [] rest, rfl⟩

theorem startsWith_sign {char : Char} {text rest : List Char} (htext : text = char :: rest)
    (hchar : char ∈ signs) : StartsWith (.sign char : Lexeme P) text rest :=
  startsWith_sign_iff.mpr ⟨hchar, htext⟩

/-- Lexemes are never spelled with nothing, so the text gets shorter. -/
theorem Front.length_le {lexemes : List (Lexeme P)} {text rest : List Char}
    (hfront : Front lexemes text rest) :
    (skipBlanks rest).length + lexemes.length ≤ (skipBlanks text).length := by
  induction hfront with
  | nil hgap => rw [hgap]; exact Nat.le_refl _
  | @cons _ _ _ after _ hstarts _ ih =>
      obtain ⟨spelling, hspells, -, heq⟩ := hstarts
      have hpositive := hspells.length_pos
      have hafter := length_skipBlanks_le after
      rw [heq, List.length_append, List.length_cons]
      omega

theorem front_of_spelled {lexemes : List (Lexeme P)} {written : List Char}
    (hspelled : Spelled lexemes written) (rest : List Char) :
    Front lexemes (written ++ ';' :: rest) (';' :: rest) := by
  induction hspelled with
  | nil hgap => exact .nil (hgap.skipBlanks_append _)
  | @cons lexeme lexemes gap spelling after hgap hspells hapart _ ih =>
      refine .cons ⟨spelling, hspells, fun hbare => ?_, ?_⟩ ih
      · have hend := hapart hbare
        cases after with
        | nil =>
            rintro char ⟨⟩
            decide
        | cons => exact hend
      · rw [List.append_assoc, hgap.skipBlanks_append, List.append_assoc,
          hspells.skipBlanks_append]

theorem exists_spelled_of_front {lexemes : List (Lexeme P)} {text after rest : List Char}
    (hfront : Front lexemes text after) (hafter : skipBlanks after = ';' :: rest) :
    ∃ written, Spelled lexemes written ∧ text = written ++ ';' :: rest := by
  have hgap : ∀ {text front : List Char}, skipBlanks text = front → front ≠ [] →
      ∃ gap, IsGap gap ∧ text = gap ++ front := by
    rintro text _ rfl hne
    exact (exists_gap text).resolve_left hne
  induction hfront with
  | nil htext =>
      obtain ⟨gap, hblank, rfl⟩ := hgap (htext.trans hafter) (List.cons_ne_nil _ _)
      exact ⟨gap, .nil hblank, rfl⟩
  | cons hstarts _ ih =>
      obtain ⟨written, hspelled, rfl⟩ := ih hafter
      obtain ⟨spelling, hspells, hapart, htext⟩ := hstarts
      have hne : spelling ++ (written ++ ';' :: rest) ≠ [] := by
        have hpositive := hspells.length_pos
        exact List.append_ne_nil_of_left_ne_nil (List.ne_nil_of_length_pos hpositive) _
      obtain ⟨gap, hblank, rfl⟩ := hgap htext hne
      refine ⟨gap ++ (spelling ++ written), .cons hblank hspells (fun hbare => ?_) hspelled, ?_⟩
      · have hend := hapart hbare
        cases written with
        | nil => exact fun _ hchar => nomatch hchar
        | cons => exact hend
      · simp

/-! ## What is taken is a phrase -/

/-- Whatever is read from a text is a phrase at its front. -/
def TakesPhrase {α : Type} (isPhrase : List (Lexeme P) → α → Prop) (text : List Char)
    (result : Except Failure (Taken α)) : Prop :=
  ∀ value rest, result = .ok (value, rest) →
    ∃ lexemes, Front lexemes text rest ∧ isPhrase lexemes value

theorem TakesPhrase.failAt {α : Type} {isPhrase : List (Lexeme P) → α → Prop}
    {text : List Char} (left : List Char) (reason : Reason) :
    TakesPhrase isPhrase text (Source.failAt left reason) := by
  intro value rest hread
  cases hread

/-- What is read first stands in front of what is read behind it. -/
theorem TakesPhrase.bind {α β : Type} {isFirst : List (Lexeme P) → α → Prop}
    {isPhrase : List (Lexeme P) → β → Prop} {text : List Char}
    {result : Except Failure (Taken α)} {next : Taken α → Except Failure (Taken β)}
    (hfirst : TakesPhrase isFirst text result)
    (hnext : ∀ value rest lexemes, isFirst lexemes value →
      TakesPhrase (fun others => isPhrase (lexemes ++ others)) rest (next (value, rest))) :
    TakesPhrase isPhrase text (result >>= next) := by
  intro value rest hread
  obtain ⟨⟨found, after⟩, hfound, hread⟩ := bind_eq_ok_iff.mp hread
  obtain ⟨lexemes, hfront, hphrase⟩ := hfirst found after hfound
  obtain ⟨others, hothers, hwhole⟩ := hnext found after lexemes hphrase value rest hread
  exact ⟨lexemes ++ others, front_append_iff.mpr ⟨after, hfront, hothers⟩, hwhole⟩

theorem TakesPhrase.ok {α : Type} {isPhrase : List (Lexeme P) → α → Prop} {value : α}
    (hphrase : isPhrase [] value) {text rest : List Char}
    (hgap : skipBlanks text = skipBlanks rest) :
    TakesPhrase isPhrase text (.ok (value, rest)) := by
  rintro _ _ ⟨⟩
  exact ⟨[], .nil hgap, hphrase⟩

theorem TakesPhrase.cons {α : Type} {isPhrase : List (Lexeme P) → α → Prop}
    {lexeme : Lexeme P} {text rest : List Char} {result : Except Failure (Taken α)}
    (hstarts : StartsWith lexeme (skipBlanks text) rest)
    (hrest : TakesPhrase (fun lexemes => isPhrase (lexeme :: lexemes)) rest result) :
    TakesPhrase isPhrase text result := by
  intro value after hvalue
  obtain ⟨lexemes, hfront, hphrase⟩ := hrest value after hvalue
  exact ⟨lexeme :: lexemes, .cons hstarts hfront, hphrase⟩

theorem TakesPhrase.imp {α : Type} {isPhrase isOther : List (Lexeme P) → α → Prop}
    {text : List Char} {result : Except Failure (Taken α)}
    (hread : TakesPhrase isPhrase text result)
    (himp : ∀ lexemes value, isPhrase lexemes value → isOther lexemes value) :
    TakesPhrase isOther text result := by
  intro value rest hvalue
  obtain ⟨lexemes, hfront, hphrase⟩ := hread value rest hvalue
  exact ⟨lexemes, hfront, himp lexemes value hphrase⟩

theorem takesPhrase_token {α : Type} (lexemeOf : α → Lexeme P) {text : List Char}
    {result : Except Failure (Taken α)}
    (hread : ∀ value rest, result = .ok (value, rest) →
      StartsWith (lexemeOf value) (skipBlanks text) rest) :
    TakesPhrase (fun lexemes value => lexemes = [lexemeOf value]) text result := by
  intro value rest hvalue
  exact ⟨[lexemeOf value], .cons (hread value rest hvalue) (.nil rfl), rfl⟩

theorem takesPhrase_marks (allowance : Nat) (unit : Expansion P) (text : List Char) :
    TakesPhrase (fun lexemes whole => IsMarked lexemes unit whole) text
      (marks allowance unit text) := by
  induction allowance generalizing unit text with
  | zero => exact TakesPhrase.failAt _ _
  | succ allowance ih =>
      rw [marks]
      split
      · rename_i hstar
        exact .cons (startsWith_sign hstar (by decide)) ((ih _ _).imp fun _ _ => .cons .star)
      · rename_i hplus
        exact .cons (startsWith_sign hplus (by decide)) ((ih _ _).imp fun _ _ => .cons .plus)
      · rename_i hoptional
        exact .cons (startsWith_sign hoptional (by decide))
          ((ih _ _).imp fun _ _ => .cons .optional)
      · rename_i hopen
        refine (takesPhrase_token .tag fun tag rest hread => ?_).bind ?_
        · rw [hopen]
          exact tag_eq_ok_iff.mp hread
        · rintro tag rest _ rfl
          exact (ih _ _).imp fun _ _ => .cons (marks_tag_iff.mpr rfl)
      · exact .ok .nil rfl

/-- What a branch starts with before its sequence. -/
def IsGiven (lexemes : List (Lexeme P)) : Option P → Prop
  | none => lexemes = []
  | some weight => lexemes = [.weight weight]

theorem takesPhrase_weight? (text : List Char) :
    TakesPhrase IsGiven text (weight? (skipBlanks text) : Except Failure (Taken (Option P))) := by
  intro given? rest hread
  cases given? with
  | some weight => exact ⟨_, .cons (weight?_eq_some_iff.mp hread) (.nil rfl), rfl⟩
  | none =>
      unfold weight? at hread
      split at hread
      · split at hread
        · cases hread
        · cases hread
      · obtain ⟨-, rfl⟩ := Prod.mk.inj (Except.ok.inj hread)
        exact ⟨[], .nil (skipBlanks_skipBlanks text).symm, rfl⟩

mutual

theorem takesPhrase_branches (allowance : Nat) (text : List Char) :
    TakesPhrase IsBranches text
      (branches allowance text : Except Failure (Taken (List (Branch P (Expansion P))))) := by
  match allowance with
  | 0 => exact TakesPhrase.failAt _ _
  | allowance + 1 =>
      rw [branches]
      refine (takesPhrase_weight? text).bind fun given? rest front hfront => ?_
      refine (takesPhrase_sequence allowance rest).bind fun body after lexemes hbody => ?_
      have hbranch : IsBranch (front ++ lexemes) ⟨given?, 1, body⟩ := by
        cases given? with
        | none =>
            obtain rfl := hfront
            exact .plain hbody
        | some weight =>
            obtain rfl := hfront
            exact .weighted hbody
      dsimp only
      split
      · rename_i hbar
        refine .cons (startsWith_sign hbar (by decide)) ?_
        refine (takesPhrase_branches allowance _).bind fun others rest more hothers => ?_
        refine .ok ?_ rfl
        have hwhole := IsBranches.cons hbranch hothers
        simpa using hwhole
      · refine .ok ?_ (skipBlanks_skipBlanks after).symm
        have hwhole := IsBranches.one hbranch
        simpa using hwhole

theorem takesPhrase_alternation (allowance : Nat) (text : List Char) :
    TakesPhrase IsAlternation text
      (alternation allowance text : Except Failure (Taken (Expansion P))) := by
  match allowance with
  | 0 => exact TakesPhrase.failAt _ _
  | allowance + 1 =>
      rw [alternation]
      refine (takesPhrase_branches allowance text).bind fun list rest lexemes hlist => ?_
      refine .ok ?_ rfl
      rw [List.append_nil]
      exact isAlternation_iff.mpr ⟨list, hlist, rfl⟩

theorem takesPhrase_sequence (allowance : Nat) (text : List Char) :
    TakesPhrase IsSequence text
      (sequence allowance text : Except Failure (Taken (Expansion P))) := by
  match allowance with
  | 0 => exact TakesPhrase.failAt _ _
  | allowance + 1 =>
      rw [sequence]
      refine (takesPhrase_units allowance text).bind fun list rest lexemes hlist => ?_
      split
      · exact TakesPhrase.failAt _ _
      · rename_i hne heq
        obtain ⟨rfl, rfl⟩ := Prod.mk.inj heq
        refine .ok ?_ rfl
        rw [List.append_nil]
        exact isSequence_iff.mpr ⟨list, hlist, fun hnil => hne hnil, rfl⟩

theorem takesPhrase_units (allowance : Nat) (text : List Char) :
    TakesPhrase IsUnits text
      (units allowance text : Except Failure (Taken (List (Expansion P)))) := by
  match allowance with
  | 0 => exact TakesPhrase.failAt _ _
  | allowance + 1 =>
      rw [units]
      dsimp only
      split
      · exact .ok .nil (skipBlanks_skipBlanks text).symm
      · refine (takesPhrase_unit allowance text).bind fun first rest lexemes hfirst => ?_
        refine (takesPhrase_units allowance rest).bind fun others rest more hothers => ?_
        refine .ok ?_ rfl
        rw [List.append_nil]
        exact .cons hfirst hothers

theorem takesPhrase_unit (allowance : Nat) (text : List Char) :
    TakesPhrase IsUnit text
      (unit allowance (skipBlanks text) : Except Failure (Taken (Expansion P))) := by
  match allowance with
  | 0 => exact TakesPhrase.failAt _ _
  | allowance + 1 =>
      rw [unit]
      refine (takesPhrase_atom allowance text).bind fun atom rest lexemes hatom => ?_
      intro whole after hread
      obtain ⟨marks, hfront, hmarks⟩ := takesPhrase_marks allowance atom rest whole after hread
      exact ⟨marks, hfront, .marked hatom hmarks⟩

theorem takesPhrase_atom (allowance : Nat) (text : List Char) :
    TakesPhrase IsAtom text
      (atom allowance (skipBlanks text) : Except Failure (Taken (Expansion P))) := by
  match allowance with
  | 0 => exact TakesPhrase.failAt _ _
  | allowance + 1 =>
      unfold atom
      split
      · rename_i hopen
        refine .cons (startsWith_sign hopen (by decide)) ?_
        refine (takesPhrase_alternation allowance _).bind fun body rest lexemes hbody => ?_
        dsimp only
        split
        · rename_i hclose
          exact .cons (startsWith_sign hclose (by decide)) (.ok (.group hbody) rfl)
        · exact TakesPhrase.failAt _ _
      · rename_i hopen
        refine .cons (startsWith_sign hopen (by decide)) ?_
        refine (takesPhrase_alternation allowance _).bind fun body rest lexemes hbody => ?_
        dsimp only
        split
        · rename_i hclose
          exact .cons (startsWith_sign hclose (by decide)) (.ok (.optional hbody) rfl)
        · exact TakesPhrase.failAt _ _
      · refine (takesPhrase_token .name fun name rest => bracketedName_eq_ok_iff.mp).bind ?_
        rintro name rest _ rfl
        exact .ok (isAtom_name_iff.mpr rfl) rfl
      · rename_i hquote
        refine (takesPhrase_token .word fun word rest hread => ?_).bind ?_
        · rw [hquote]
          exact quoted_eq_ok_iff.mp hread
        · rintro word rest _ rfl
          exact .ok .word rfl
      · exact TakesPhrase.failAt _ _
      · exact TakesPhrase.failAt _ _
      · exact TakesPhrase.failAt _ _
      · rename_i hquote _ _ _
        have hhead : (skipBlanks text).head? ≠ some '"' := by
          intro hhead
          obtain ⟨more, hmore⟩ := List.head?_eq_some_iff.mp hhead
          exact hquote more hmore
        refine (takesPhrase_token .word fun word rest => (bareWord_eq_ok_iff hhead).mp).bind ?_
        rintro word rest _ rfl
        exact .ok .word rfl

end

/-! ## Phrases are taken -/

/-- Texts in front of which, behind a gap, no mark comes. -/
def EndsUnit (text : List Char) : Prop :=
  ∀ char ∈ (skipBlanks text).head?, char ∉ ['*', '+', '?', '{']

def EndsAlternation (text : List Char) : Prop :=
  ∃ close rest, skipBlanks text = close :: rest ∧ close ∈ closers

theorem EndsAlternation.endsAlternative_eq {text : List Char} (hends : EndsAlternation text) :
    endsAlternative (skipBlanks text) = true := by
  obtain ⟨close, rest, heq, hclose⟩ := hends
  have hall : ∀ close ∈ closers, endsAlternative [close] = true :=
    List.all_iff_forall_prop.mp (by decide)
  rw [heq]
  exact hall close hclose

theorem endsAlternation_closer {close : Char} (hclose : close ∈ closers) (rest : List Char) :
    EndsAlternation (close :: rest) :=
  ⟨close, rest, skipBlanks_closer hclose rest, hclose⟩

theorem endsUnit_of_endsAlternative {text : List Char}
    (hends : endsAlternative (skipBlanks text) = true) : EndsUnit text := by
  intro char hchar hmark
  obtain ⟨rest, heq⟩ := List.head?_eq_some_iff.mp hchar
  have hall : ∀ char ∈ ['*', '+', '?', '{'], endsAlternative [char] = false :=
    List.all_iff_forall_prop.mp (by decide)
  rw [heq] at hends
  exact Bool.false_ne_true ((hall char hmark).symm.trans hends)

theorem endsUnit_of_startsUnit {text : List Char} (hstarts : StartsUnit (skipBlanks text)) :
    EndsUnit text := by
  obtain ⟨first, rest, heq, hopens⟩ := hstarts
  intro char hchar hmark
  rw [heq] at hchar
  obtain rfl := Option.some.inj hchar
  have hall : ∀ char ∈ ['*', '+', '?', '{'],
      char ∈ ['*', '+', '?', '{', '/', ';', '|', ')', ']'] :=
    List.all_iff_forall_prop.mp (by decide)
  exact hopens.not_mem (hall first hmark)

theorem startsUnit_of_startsWith {lexeme : Lexeme P} {text rest : List Char}
    (hstarts : StartsWith lexeme text rest)
    (hopens : (∃ word, lexeme = .word word) ∨ ∃ name, lexeme = .name name) :
    StartsUnit text := by
  obtain ⟨spelling, hspells, -, rfl⟩ := hstarts
  rcases hopens with ⟨word, rfl⟩ | ⟨name, rfl⟩
  · cases hspells with
    | bare hne hbare =>
        obtain ⟨char, more, rfl⟩ := List.exists_cons_of_ne_nil hne
        exact ⟨char, _, rfl, .inl (hbare char (List.mem_cons_self ..))⟩
    | quoted _ _ => exact ⟨'"', _, rfl, .inr (by decide)⟩
  · cases hspells with
    | name _ => exact ⟨'<', _, rfl, .inr (by decide)⟩

theorem IsAtom.startsUnit {lexemes : List (Lexeme P)} {expansion : Expansion P}
    (hatom : IsAtom lexemes expansion) {text rest : List Char} (hfront : Front lexemes text rest) :
    StartsUnit (skipBlanks text) := by
  cases hfront with
  | nil => cases hatom
  | cons hstarts _ =>
    cases hatom with
    | word => exact startsUnit_of_startsWith hstarts (.inl ⟨_, rfl⟩)
    | null => exact startsUnit_of_startsWith hstarts (.inr ⟨_, rfl⟩)
    | void => exact startsUnit_of_startsWith hstarts (.inr ⟨_, rfl⟩)
    | reference _ _ => exact startsUnit_of_startsWith hstarts (.inr ⟨_, rfl⟩)
    | group _ => exact ⟨'(', _, (startsWith_sign_iff.mp hstarts).2, .inr (by decide)⟩
    | optional _ => exact ⟨'[', _, (startsWith_sign_iff.mp hstarts).2, .inr (by decide)⟩

theorem IsUnit.startsUnit {lexemes : List (Lexeme P)} {expansion : Expansion P}
    (hunit : IsUnit lexemes expansion) {text rest : List Char} (hfront : Front lexemes text rest) :
    StartsUnit (skipBlanks text) := by
  cases hunit with
  | marked hatom _ =>
      obtain ⟨mid, hfirst, -⟩ := front_append_iff.mp hfront
      exact hatom.startsUnit hfirst

theorem IsAtom.length_pos {lexemes : List (Lexeme P)} {expansion : Expansion P}
    (hatom : IsAtom lexemes expansion) : 0 < lexemes.length := by
  cases hatom <;> exact Nat.succ_pos _

theorem IsUnit.length_pos {lexemes : List (Lexeme P)} {expansion : Expansion P}
    (hunit : IsUnit lexemes expansion) : 0 < lexemes.length := by
  cases hunit with
  | marked hatom _ =>
      rw [List.length_append]
      exact Nat.add_pos_left hatom.length_pos _

theorem IsSequence.startsUnit {lexemes : List (Lexeme P)} {expansion : Expansion P}
    (hsequence : IsSequence lexemes expansion) {text rest : List Char}
    (hfront : Front lexemes text rest) : StartsUnit (skipBlanks text) := by
  obtain ⟨list, hunits, hne, -⟩ := isSequence_iff.mp hsequence
  cases hunits with
  | nil => contradiction
  | cons hunit _ =>
      obtain ⟨mid, hfirst, -⟩ := front_append_iff.mp hfront
      exact hunit.startsUnit hfirst

/-- A mark that comes next is applied, and reading goes on behind it. -/
theorem marks_of_startsWith {mark : Lexeme P} {unit marked : Expansion P}
    (hmark : Marks mark unit marked) {text after : List Char}
    (hstarts : StartsWith mark (skipBlanks text) after) (allowance : Nat) :
    marks (allowance + 1) unit text = marks allowance marked after := by
  have htag : ∀ {tag : Tag}, StartsWith (.tag tag : Lexeme P) (skipBlanks text) after →
      marks (allowance + 1) unit text = marks allowance (attach unit tag) after := by
    intro tag hstarts
    obtain ⟨rest, hopen⟩ : ∃ rest, skipBlanks text = '{' :: rest := by
      obtain ⟨_, hspells, -, heq⟩ := hstarts
      cases hspells with
      | tag _ _ => exact ⟨_, heq⟩
    rw [hopen] at hstarts
    have hread : Source.tag ('{' :: rest) rest = .ok (tag, after) := tag_eq_ok_iff.mpr hstarts
    rw [marks, hopen]
    exact bind_of_eq_ok hread
  cases hmark with
  | star =>
      rw [marks, (startsWith_sign_iff.mp hstarts).2]
      rfl
  | plus =>
      rw [marks, (startsWith_sign_iff.mp hstarts).2]
      rfl
  | optional =>
      rw [marks, (startsWith_sign_iff.mp hstarts).2]
      rfl
  | first hplain => rw [htag hstarts, marks_tag_iff.mp (.first hplain)]
  | another => rw [htag hstarts, marks_tag_iff.mp .another]

/-- Marks are taken one by one, each from a lower allowance. -/
theorem exists_marks {lexemes : List (Lexeme P)} {unit whole : Expansion P}
    (hmarks : IsMarked lexemes unit whole) {text rest : List Char}
    (hfront : Front lexemes text rest) (hends : EndsUnit rest) {allowance : Nat}
    (hallowance : lexemes.length < allowance) :
    ∃ after, skipBlanks after = skipBlanks rest ∧
      marks allowance unit text = .ok (whole, after) := by
  induction hmarks generalizing text allowance with
  | nil =>
      obtain ⟨allowance, rfl⟩ := Nat.exists_eq_succ_of_ne_zero (Nat.ne_zero_of_lt hallowance)
      cases hfront with
      | nil hgap =>
          rw [EndsUnit, ← hgap] at hends
          exact ⟨text, hgap, marks_of_stop hends allowance⟩
  | cons hmark _ ih =>
      obtain ⟨allowance, rfl⟩ := Nat.exists_eq_succ_of_ne_zero (Nat.ne_zero_of_lt hallowance)
      cases hfront with
      | cons hstarts hlexemes =>
          obtain ⟨last, hgap, hread⟩ := ih hlexemes (Nat.lt_of_succ_lt_succ hallowance)
          exact ⟨last, hgap, (marks_of_startsWith hmark hstarts allowance).trans hread⟩

theorem atom_word {word text after : List Char}
    (hstarts : StartsWith (.word word : Lexeme P) text after) (allowance : Nat) :
    (atom (allowance + 1) text : Except Failure (Taken (Expansion P))) =
      .ok (.literal (String.ofList word), after) := by
  have hspelled := hstarts
  obtain ⟨spelling, hspells, -, rfl⟩ := hspelled
  cases hspells with
  | bare hne hbare =>
      obtain ⟨char, more, rfl⟩ := List.exists_cons_of_ne_nil hne
      have hchar := hbare char (List.mem_cons_self ..)
      have hquote : (char :: (more ++ after)).head? ≠ some '"' := by
        rintro ⟨⟩
        cases hchar
      rw [List.cons_append] at hstarts ⊢
      rw [atom_of_bare hchar, (bareWord_eq_ok_iff hquote).mpr hstarts]
      rfl
  | quoted _ _ =>
      rw [List.cons_append] at hstarts ⊢
      rw [atom, quoted_eq_ok_iff.mpr hstarts]
      rfl

theorem atom_name {name text after : List Char}
    (hstarts : StartsWith (.name name : Lexeme P) text after) (allowance : Nat) :
    (atom (allowance + 1) text : Except Failure (Taken (Expansion P))) =
      .ok (named name, after) := by
  have hread := bracketedName_eq_ok_iff.mpr hstarts
  obtain ⟨spelling, hspells, -, rfl⟩ := hstarts
  cases hspells with
  | name _ =>
      rw [List.cons_append] at hread ⊢
      rw [atom, hread]
      rfl

theorem exists_atom_name {name : List Char} {expansion : Expansion P}
    (hatom : IsAtom [.name name] expansion) {text rest : List Char}
    (hfront : Front [(.name name : Lexeme P)] text rest) (allowance : Nat) :
    ∃ after, skipBlanks after = skipBlanks rest ∧
      atom (allowance + 1) (skipBlanks text) = .ok (expansion, after) := by
  obtain ⟨after, hstarts, hgap⟩ := front_singleton_iff.mp hfront
  refine ⟨after, hgap, ?_⟩
  rw [atom_name hstarts, isAtom_name_iff.mp hatom]

theorem atom_group {inside mid after : List Char} {body : Expansion P} {allowance : Nat}
    (hread : alternation allowance inside = .ok (body, skipBlanks mid))
    (hclose : skipBlanks mid = ')' :: after) :
    atom (allowance + 1) ('(' :: inside) = .ok (body, after) := by
  rw [atom]
  refine bind_eq_ok_iff.mpr ⟨_, hread, ?_⟩
  dsimp only
  rw [skipBlanks_skipBlanks, hclose]
  rfl

theorem atom_optional {inside mid after : List Char} {body : Expansion P} {allowance : Nat}
    (hread : alternation allowance inside = .ok (body, skipBlanks mid))
    (hclose : skipBlanks mid = ']' :: after) :
    atom (allowance + 1) ('[' :: inside) = .ok (.optional body, after) := by
  rw [atom]
  refine bind_eq_ok_iff.mpr ⟨_, hread, ?_⟩
  dsimp only
  rw [skipBlanks_skipBlanks, hclose]
  rfl

theorem exists_of_front_between {opening closing : Char} {lexemes : List (Lexeme P)}
    {text rest : List Char}
    (hfront : Front (.sign opening :: (lexemes ++ [.sign closing])) text rest) :
    ∃ inside mid after, skipBlanks text = opening :: inside ∧ Front lexemes inside mid ∧
      skipBlanks mid = closing :: after ∧ skipBlanks after = skipBlanks rest := by
  cases hfront with
  | @cons _ _ _ inside _ hstarts hrest =>
      obtain ⟨mid, hinside, hclose⟩ := front_append_iff.mp hrest
      obtain ⟨after, hclosing, hgap⟩ := front_singleton_iff.mp hclose
      exact ⟨inside, mid, after, (startsWith_sign_iff.mp hstarts).2, hinside,
        (startsWith_sign_iff.mp hclosing).2, hgap⟩

/-!
### Phrases of every kind

The induction is on the allowance.  At most six calls lie between two lexemes,
one for each kind of phrase, and each bound says how many are still to come.
-/

theorem IsBranch.exists_weight? {lexemes : List (Lexeme P)} {branch : Branch P (Expansion P)}
    (hbranch : IsBranch lexemes branch) {text rest : List Char} (hfront : Front lexemes text rest) :
    ∃ given? body more after, branch = ⟨given?, 1, body⟩ ∧
      weight? (skipBlanks text) = .ok (given?, after) ∧ IsSequence more body ∧
        Front more after rest ∧ more.length ≤ lexemes.length := by
  cases hbranch with
  | plain hbody =>
      refine ⟨none, _, lexemes, skipBlanks text, rfl, ?_, hbody,
        hfront.congr (skipBlanks_skipBlanks text) rfl, Nat.le_refl _⟩
      obtain ⟨char, more, heq, hopens⟩ := hbody.startsUnit hfront
      rw [heq, weight?]
      rintro _ ⟨⟩
      exact hopens.not_mem (by decide)
  | weighted hbody =>
      cases hfront with
      | cons hstarts hlexemes =>
          exact ⟨some _, _, _, _, rfl, weight?_eq_some_iff.mpr hstarts, hbody, hlexemes,
            Nat.le_succ _⟩

mutual

theorem branches_eq_ok {lexemes : List (Lexeme P)} {list : List (Branch P (Expansion P))}
    (hbranches : IsBranches lexemes list) {text rest : List Char}
    (hfront : Front lexemes text rest) (hends : EndsAlternation rest) (allowance : Nat)
    (hallowance : 6 * lexemes.length + 4 ≤ allowance) :
    branches allowance text = .ok (list, skipBlanks rest) := by
  match allowance with
  | allowance + 1 =>
      rw [branches]
      cases hbranches with
      | one hbranch =>
          obtain ⟨given?, body, more, after, rfl, hweight, hbody, hafter, hlength⟩ :=
            hbranch.exists_weight? hfront
          have hread := sequence_eq_ok hbody hafter hends.endsAlternative_eq allowance (by omega)
          obtain ⟨close, last, heq, hclose⟩ := hends
          refine bind_eq_ok_iff.mpr ⟨_, hweight, bind_eq_ok_iff.mpr ⟨_, hread, ?_⟩⟩
          dsimp only
          rw [skipBlanks_skipBlanks, heq]
          split
          · rename_i hbar
            obtain ⟨rfl, -⟩ := List.cons.inj hbar
            exact absurd hclose (by decide)
          · rfl
      | @cons lexemes others branch list hbranch hothers =>
          obtain ⟨mid, hfirst, hlater⟩ := front_append_iff.mp hfront
          obtain ⟨given?, body, more, after, rfl, hweight, hbody, hafter, hlength⟩ :=
            hbranch.exists_weight? hfirst
          rw [List.length_append, List.length_cons] at hallowance
          cases hlater with
          | @cons _ _ _ next _ hstarts hlater =>
              obtain ⟨-, hbar⟩ := startsWith_sign_iff.mp hstarts
              have hread := sequence_eq_ok hbody hafter (by rw [hbar]; rfl) allowance (by omega)
              have hothers := branches_eq_ok hothers hlater hends allowance (by omega)
              refine bind_eq_ok_iff.mpr ⟨_, hweight, bind_eq_ok_iff.mpr ⟨_, hread, ?_⟩⟩
              dsimp only
              rw [skipBlanks_skipBlanks, hbar]
              exact bind_eq_ok_iff.mpr ⟨_, hothers, rfl⟩

theorem alternation_eq_ok {lexemes : List (Lexeme P)} {expansion : Expansion P}
    (halternation : IsAlternation lexemes expansion) {text rest : List Char}
    (hfront : Front lexemes text rest) (hends : EndsAlternation rest) (allowance : Nat)
    (hallowance : 6 * lexemes.length + 5 ≤ allowance) :
    alternation allowance text = .ok (expansion, skipBlanks rest) := by
  match allowance with
  | allowance + 1 =>
      obtain ⟨list, hbranches, rfl⟩ := isAlternation_iff.mp halternation
      rw [alternation, branches_eq_ok hbranches hfront hends allowance (by omega)]
      rfl

theorem sequence_eq_ok {lexemes : List (Lexeme P)} {expansion : Expansion P}
    (hsequence : IsSequence lexemes expansion) {text rest : List Char}
    (hfront : Front lexemes text rest) (hends : endsAlternative (skipBlanks rest) = true)
    (allowance : Nat) (hallowance : 6 * lexemes.length + 3 ≤ allowance) :
    sequence allowance text = .ok (expansion, skipBlanks rest) := by
  match allowance with
  | allowance + 1 =>
      obtain ⟨list, hunits, hne, rfl⟩ := isSequence_iff.mp hsequence
      rw [sequence, units_eq_ok hunits hfront hends allowance (by omega)]
      obtain ⟨first, others, rfl⟩ := List.exists_cons_of_ne_nil hne
      rfl

theorem units_eq_ok {lexemes : List (Lexeme P)} {list : List (Expansion P)}
    (hunits : IsUnits lexemes list) {text rest : List Char}
    (hfront : Front lexemes text rest) (hends : endsAlternative (skipBlanks rest) = true)
    (allowance : Nat) (hallowance : 6 * lexemes.length + 2 ≤ allowance) :
    units allowance text = .ok (list, skipBlanks rest) := by
  match allowance with
  | allowance + 1 =>
      rw [units]
      dsimp only
      cases hunits with
      | nil =>
          cases hfront with
          | nil hgap =>
              rw [hgap, if_pos hends]
              rfl
      | @cons lexemes others unit list hunit hothers =>
          obtain ⟨mid, hfirst, hlater⟩ := front_append_iff.mp hfront
          have hpositive := hunit.length_pos
          rw [List.length_append] at hallowance
          have hmid : EndsUnit mid := by
            cases hothers with
            | nil =>
                cases hlater with
                | nil hgap =>
                    rw [← hgap] at hends
                    exact endsUnit_of_endsAlternative hends
            | cons hnext _ =>
                obtain ⟨last, hnextFront, -⟩ := front_append_iff.mp hlater
                exact endsUnit_of_startsUnit (hnext.startsUnit hnextFront)
          obtain ⟨after, hgap, hread⟩ := exists_unit hunit hfirst hmid allowance (by omega)
          have hothers := units_eq_ok hothers (hlater.congr hgap rfl) hends allowance (by omega)
          rw [endsAlternative_eq_false (hunit.startsUnit hfirst), if_neg Bool.false_ne_true]
          exact bind_eq_ok_iff.mpr ⟨_, hread, bind_eq_ok_iff.mpr ⟨_, hothers, rfl⟩⟩

theorem exists_unit {lexemes : List (Lexeme P)} {expansion : Expansion P}
    (hunit : IsUnit lexemes expansion) {text rest : List Char} (hfront : Front lexemes text rest)
    (hends : EndsUnit rest) (allowance : Nat) (hallowance : 6 * lexemes.length + 1 ≤ allowance) :
    ∃ after, skipBlanks after = skipBlanks rest ∧
      unit allowance (skipBlanks text) = .ok (expansion, after) := by
  match allowance with
  | allowance + 1 =>
      cases hunit with
      | @marked lexemes marks body _ hatom hmarks =>
          obtain ⟨mid, hfirst, hlater⟩ := front_append_iff.mp hfront
          have hpositive := hatom.length_pos
          rw [List.length_append] at hallowance
          obtain ⟨after, hgap, hread⟩ := exists_atom hatom hfirst allowance (by omega)
          rw [unit, hread]
          exact exists_marks hmarks (hlater.congr hgap rfl) hends (by omega)

theorem exists_atom {lexemes : List (Lexeme P)} {expansion : Expansion P}
    (hatom : IsAtom lexemes expansion) {text rest : List Char} (hfront : Front lexemes text rest)
    (allowance : Nat) (hallowance : 6 * lexemes.length ≤ allowance) :
    ∃ after, skipBlanks after = skipBlanks rest ∧
      atom allowance (skipBlanks text) = .ok (expansion, after) := by
  match allowance with
  | 0 =>
      have hpositive := hatom.length_pos
      omega
  | allowance + 1 =>
      cases hatom with
      | word =>
          obtain ⟨after, hstarts, hgap⟩ := front_singleton_iff.mp hfront
          exact ⟨after, hgap, atom_word hstarts allowance⟩
      | null => exact exists_atom_name .null hfront allowance
      | void => exact exists_atom_name .void hfront allowance
      | reference hnull hvoid => exact exists_atom_name (.reference hnull hvoid) hfront allowance
      | group hbody =>
          obtain ⟨inside, mid, after, hopen, hinside, hclose, hgap⟩ :=
            exists_of_front_between hfront
          simp only [List.length_cons, List.length_append, List.length_nil] at hallowance
          have hread := alternation_eq_ok hbody hinside ⟨_, _, hclose, by decide⟩ allowance
            (by omega)
          refine ⟨after, hgap, ?_⟩
          rw [hopen]
          exact atom_group hread hclose
      | optional hbody =>
          obtain ⟨inside, mid, after, hopen, hinside, hclose, hgap⟩ :=
            exists_of_front_between hfront
          simp only [List.length_cons, List.length_append, List.length_nil] at hallowance
          have hread := alternation_eq_ok hbody hinside ⟨_, _, hclose, by decide⟩ allowance
            (by omega)
          refine ⟨after, hgap, ?_⟩
          rw [hopen]
          exact atom_optional hread hclose

end

/-! ## Rule bodies -/

theorem exists_derives_of_body {text rest : List Char} {expansion : Expansion P}
    (hread : body text = .ok (expansion, rest)) :
    ∃ written, Derives written expansion ∧ text = written ++ ';' :: rest := by
  obtain ⟨⟨found, after⟩, hfound, hread⟩ := bind_eq_ok_iff.mp hread
  obtain ⟨lexemes, hfront, halternation⟩ := takesPhrase_alternation _ text found after hfound
  dsimp only at hread
  split at hread
  · rename_i hclose
    obtain ⟨rfl, rfl⟩ := Prod.mk.inj (Except.ok.inj hread)
    obtain ⟨written, hspelled, rfl⟩ := exists_spelled_of_front hfront hclose
    exact ⟨written, ⟨lexemes, hspelled, halternation⟩, rfl⟩
  · cases hread
  · cases hread
  · cases hread

theorem Derives.body_append {written : List Char} {expansion : Expansion P}
    (hderives : Derives written expansion) (rest : List Char) :
    body (written ++ ';' :: rest) = .ok (expansion, rest) := by
  obtain ⟨lexemes, hspelled, halternation⟩ := hderives
  have hfront := front_of_spelled hspelled rest
  have hlength := hfront.length_le
  have hskip := length_skipBlanks_le (written ++ ';' :: rest)
  have hread := alternation_eq_ok halternation hfront (endsAlternation_closer (by decide) rest)
    (allowanceFor (written ++ ';' :: rest)) (by rw [allowanceFor]; omega)
  rw [body]
  refine bind_eq_ok_iff.mpr ⟨_, hread, ?_⟩
  dsimp only
  rw [skipBlanks_skipBlanks, skipBlanks_closer (by decide)]
  rfl

/-- The grammar of rule bodies is not ambiguous. -/
theorem Derives.unique {written : List Char} {expansion other : Expansion P}
    (hderives : Derives written expansion) (hother : Derives written other) :
    expansion = other := by
  have hread := (hderives.body_append []).symm.trans (hother.body_append [])
  exact (Prod.mk.inj (Except.ok.inj hread)).1

/-- A rule body is read as an expansion if and only if it derives the expansion. -/
theorem body_eq_ok_iff {text rest : List Char} {expansion : Expansion P} :
    body text = .ok (expansion, rest) ↔
      ∃ written, Derives written expansion ∧ text = written ++ ';' :: rest := by
  constructor
  · exact exists_derives_of_body
  · rintro ⟨written, hderives, rfl⟩
    exact hderives.body_append rest

-- A group of one unit is that unit, so the tag behind it joins the tag inside.
example : body "(a {x}) {y}* | /**/ [b];".toList =
    .ok ((.alternation [⟨none, 1, .star (.tagged (.literal "a") [⟨"x", none⟩, ⟨"y", none⟩])⟩,
      ⟨none, 1, .optional (.literal "b")⟩] : Expansion P), []) := by
  cbv

end SpeechGrammar.Source
