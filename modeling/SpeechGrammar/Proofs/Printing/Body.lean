import SpeechGrammar.Proofs.Printing.Token
import SpeechGrammar.Source.Body

/-!
# Printed expansions are read back

A printed expansion starts with a character that opens an atom, and what is
printed behind it starts with none that could belong to it.  So the reader of
units stops where the expansion ends, and goes on with the marks that follow.
Every construct is undone: parentheses stand around sequences and alternations
only, one unit is no sequence and one branch without weight no alternation, and
stacked tags are joined as they were.
-/

namespace SpeechGrammar.Source

/-- Characters that a printed expansion starts with. -/
def OpensUnit (char : Char) : Prop :=
  isBareCharacter char = true ∨ char ∈ ['(', '[', '<', '"']

def StartsUnit (text : List Char) : Prop := ∃ char rest, text = char :: rest ∧ OpensUnit char

def EndsWord (text : List Char) : Prop := ∀ char ∈ text.head?, isBareCharacter char = false

/-- Texts in front of which an alternative ends. -/
structure EndsSequence (text : List Char) : Prop where
  endsWord : EndsWord text
  exists_skipBlanks : ∃ char rest, skipBlanks text = char :: rest ∧ char ∈ [';', '|', ')', ']']

def closers : List Char := [')', ']', ';']

theorem OpensUnit.isBlank_eq_false {char : Char} (hopens : OpensUnit char) :
    Text.isBlank char = false := by
  have hopening : ∀ char ∈ ['(', '[', '<', '"'], Text.isBlank char = false :=
    List.all_iff_forall_prop.mp (by decide)
  rcases hopens with hbare | hmem
  · exact (isBareCharacter_iff.mp hbare).2
  · exact hopening char hmem

/-- What opens an atom is neither a mark nor a slash, and ends no alternative. -/
theorem OpensUnit.not_mem {char : Char} (hopens : OpensUnit char) :
    char ∉ ['*', '+', '?', '{', '/', ';', '|', ')', ']'] := by
  have hstops : ∀ stop ∈ ['*', '+', '?', '{', '/', ';', '|', ')', ']'], stop ∈ wordStops :=
    List.all_iff_forall_prop.mp (by decide)
  have hopening : ∀ char ∈ ['(', '[', '<', '"'],
      char ∉ ['*', '+', '?', '{', '/', ';', '|', ')', ']'] :=
    List.all_iff_forall_prop.mp (by decide)
  rcases hopens with hbare | hmem
  · exact fun hstop => (isBareCharacter_iff.mp hbare).1 (hstops char hstop)
  · exact hopening char hmem

theorem StartsUnit.append {text : List Char} (hstarts : StartsUnit text) (rest : List Char) :
    StartsUnit (text ++ rest) := by
  obtain ⟨char, more, rfl, hopens⟩ := hstarts
  exact ⟨char, more ++ rest, rfl, hopens⟩

theorem StartsUnit.skipBlanks_eq {text : List Char} (hstarts : StartsUnit text) :
    skipBlanks text = text := by
  obtain ⟨char, more, rfl, hopens⟩ := hstarts
  exact skipBlanks_cons hopens.isBlank_eq_false (fun heq => hopens.not_mem (by simp [heq])) more

theorem skipBlanks_closer {close : Char} (hclose : close ∈ closers) (rest : List Char) :
    skipBlanks (close :: rest) = close :: rest := by
  have hplain : ∀ close ∈ closers, Text.isBlank close = false ∧ close ≠ '/' :=
    List.all_iff_forall_prop.mp (by decide)
  exact skipBlanks_cons (hplain close hclose).1 (hplain close hclose).2 rest

theorem endsSequence_closer {close : Char} (hclose : close ∈ closers) (rest : List Char) :
    EndsSequence (close :: rest) := by
  have hends : ∀ close ∈ closers,
      isBareCharacter close = false ∧ close ∈ [';', '|', ')', ']'] :=
    List.all_iff_forall_prop.mp (by decide)
  refine ⟨?_, close, rest, skipBlanks_closer hclose rest, (hends close hclose).2⟩
  rintro char ⟨⟩
  exact (hends close hclose).1

variable {P : Type} [BranchWeight P]

/-! ## Printable expansions -/

/-- Words and tags that need no escapes. -/
def HasPlainTexts : Expansion P → Prop
  | .literal text => IsPrintableWord text.toList
  | .tagged _ tags => ∀ tag ∈ tags, '}' ∉ tag.text.toList ∧ '\\' ∉ tag.text.toList
  | _ => True

def AllWeights (good : P → Prop) : Expansion P → Prop
  | .alternation branches => ∀ branch ∈ branches, ∀ weight ∈ branch.weight?, good weight
  | _ => True

omit [BranchWeight P] in
instance : DecidablePred (HasPlainTexts : Expansion P → Prop)
  | .literal text => inferInstanceAs (Decidable (IsPrintableWord text.toList))
  | .tagged _ tags => inferInstanceAs (Decidable (∀ tag ∈ tags, _ ∧ _))
  | .reference _ | .sequence _ | .alternation _ | .repetition .. | .optional _ => isTrue trivial

omit [BranchWeight P] in
instance (good : P → Prop) [DecidablePred good] : DecidablePred (AllWeights good)
  | .alternation branches =>
      inferInstanceAs (Decidable (∀ branch ∈ branches, ∀ weight ∈ branch.weight?, good weight))
  | .literal _ | .reference _ | .sequence _ | .repetition .. | .optional _ | .tagged .. =>
      isTrue trivial

/-- How an expansion that is read, and printed so that it can be read again, is made. -/
structure IsLegible (expansion : Expansion P) : Prop where
  isWritten : IsWritten expansion
  hasPlainTexts : HasPlainTexts expansion
  readsBack : AllWeights BranchWeight.ReadsBack expansion

abbrev Legible (expansion : Expansion P) : Prop := expansion.Everywhere IsLegible

theorem printLiteral_cases {text : String} (hword : IsPrintableWord text.toList) :
    (Expansion.printLiteral text = text.toList ∧
        ∀ char ∈ text.toList, isBareCharacter char = true) ∨
      Expansion.printLiteral text = '"' :: (text.toList ++ ['"']) ∧
        '"' ∉ text.toList ∧ '\\' ∉ text.toList := by
  rw [Expansion.printLiteral]
  rcases hword with hbare | ⟨⟨char, hchar, hblank⟩, hquote, hbackslash⟩
  · refine .inl ⟨if_neg ?_, hbare⟩
    rw [List.any_eq_true]
    rintro ⟨char, hchar, hblank⟩
    rw [(isBareCharacter_iff.mp (hbare char hchar)).2] at hblank
    cases hblank
  · exact .inr ⟨if_pos (List.any_eq_true.mpr ⟨char, hchar, hblank⟩), hquote, hbackslash⟩

/-- Whatever is printed starts with a character that opens an atom. -/
theorem Legible.startsUnit {expansion : Expansion P} (hlegible : Legible expansion) :
    StartsUnit expansion.print := by
  induction hlegible with
  | @literal text hgood =>
      rw [Expansion.print_literal]
      rcases printLiteral_cases hgood.hasPlainTexts with ⟨hprint, hbare⟩ | ⟨hprint, -, -⟩
      · rw [hprint]
        have hsolid : Text.allBlank text.toList = false := hgood.isWritten
        cases htext : text.toList with
        | nil =>
            rw [htext] at hsolid
            cases hsolid
        | cons char rest => exact ⟨char, rest, rfl, .inl (hbare char (by simp [htext]))⟩
      · exact ⟨'"', _, hprint, .inr (by simp)⟩
  | reference _ => exact ⟨'<', _, rfl, .inr (by simp)⟩
  | @sequence items _ _ _ =>
      cases items with
      | nil => exact ⟨'<', _, rfl, .inr (by simp)⟩
      | cons item items => exact ⟨'(', _, rfl, .inr (by simp)⟩
  | @alternation branches _ _ _ =>
      cases branches with
      | nil => exact ⟨'<', _, rfl, .inr (by simp)⟩
      | cons branch branches => exact ⟨'(', _, rfl, .inr (by simp)⟩
  | repetition _ _ ih => exact ih.append _
  | optional _ _ _ => exact ⟨'[', _, rfl, .inr (by simp)⟩
  | tagged _ _ ih => exact ih.append _

/-! ## Marks and units -/

/-- Where no mark comes next a unit is complete. -/
theorem marks_of_stop {unit : Expansion P} {text : List Char}
    (hstop : ∀ char ∈ (skipBlanks text).head?, char ∉ ['*', '+', '?', '{']) (allowance : Nat) :
    marks (allowance + 1) unit text = .ok (unit, text) := by
  rw [marks]
  split
  · rename_i heq
    exact absurd (by simp) (hstop '*' (by rw [heq]; rfl))
  · rename_i heq
    exact absurd (by simp) (hstop '+' (by rw [heq]; rfl))
  · rename_i heq
    exact absurd (by simp) (hstop '?' (by rw [heq]; rfl))
  · rename_i heq
    exact absurd (by simp) (hstop '{' (by rw [heq]; rfl))
  · rfl

/-- Printed tags are put behind a unit one by one. -/
theorem exists_marks_printTags {tags : List Tag}
    (htags : ∀ tag ∈ tags,
      IsWrittenTag tag ∧ '}' ∉ tag.text.toList ∧ '\\' ∉ tag.text.toList)
    (more : Nat) (rest : List Char) (unit : Expansion P) (allowance : Nat)
    (hallowance : (Expansion.printTags tags).length + more ≤ allowance) :
    ∃ left, more ≤ left ∧
      marks allowance unit (Expansion.printTags tags ++ rest) =
        marks left (tags.foldl attach unit) rest := by
  induction tags generalizing unit allowance with
  | nil => exact ⟨allowance, by simpa [Expansion.printTags] using hallowance, rfl⟩
  | cons tag tags ih =>
      obtain ⟨⟨hwritten, hbrace, hbackslash⟩, hothers⟩ := List.forall_mem_cons.mp htags
      simp only [Expansion.printTags, List.length_cons, List.length_append] at hallowance
      obtain ⟨allowance, rfl⟩ := Nat.exists_eq_succ_of_ne_zero (n := allowance) (by omega)
      obtain ⟨left, hleft, hmarks⟩ := ih hothers (attach unit tag) allowance (by omega)
      refine ⟨left, hleft, Eq.trans ?_ hmarks⟩
      have hopen : skipBlanks (Expansion.printTags (tag :: tags) ++ rest) =
          '{' :: (tag.text.toList ++ '}' :: (Expansion.printTags tags ++ rest)) := by
        simp only [Expansion.printTags, List.cons_append, List.append_assoc]
        exact (skipBlanks_of_isBlank rfl _).trans (skipBlanks_cons rfl (by decide) _)
      rw [marks, hopen]
      exact bind_of_eq_ok (tag_append hwritten hbrace hbackslash _ _)

omit [BranchWeight P] in
/-- Tags are put behind what has none in their order. -/
theorem foldl_attach {body : Expansion P} (hbody : ∀ inner more, body ≠ .tagged inner more)
    {tags : List Tag} (hne : tags ≠ []) : tags.foldl attach body = .tagged body tags := by
  have hfold : ∀ (tags first : List Tag),
      tags.foldl attach (.tagged body first) = (.tagged body (first ++ tags) : Expansion P) := by
    intro tags
    induction tags with
    | nil => intro first; rw [List.append_nil]; rfl
    | cons tag tags ih => intro first; exact (ih _).trans (by rw [List.append_assoc]; rfl)
  cases tags with
  | nil => contradiction
  | cons tag tags =>
      have hattach : attach body tag = .tagged body [tag] := by
        unfold attach
        split
        · exact absurd rfl (hbody _ _)
        · rfl
      rw [List.foldl_cons, hattach]
      exact hfold tags [tag]

/-- The text of an expansion is read back as the unit before the marks that follow. -/
def ReadsAsUnit (expansion : Expansion P) : Prop :=
  ∀ rest, EndsWord rest → ∀ allowance more, 6 * expansion.print.length + more ≤ allowance →
    ∃ left, more ≤ left ∧
      unit allowance (expansion.print ++ rest) = marks left expansion rest

theorem readsAsUnit_of_atom {expansion : Expansion P} (hstarts : StartsUnit expansion.print)
    (hatom : ∀ rest, EndsWord rest → ∀ allowance, 6 * expansion.print.length ≤ allowance + 1 →
      atom allowance (expansion.print ++ rest) = .ok (expansion, rest)) :
    ReadsAsUnit expansion := by
  intro rest hrest allowance more hallowance
  obtain ⟨char, others, hprint, -⟩ := hstarts
  have hlength : 0 < expansion.print.length := by simp [hprint]
  obtain ⟨allowance, rfl⟩ := Nat.exists_eq_succ_of_ne_zero (n := allowance) (by omega)
  refine ⟨allowance, by omega, ?_⟩
  rw [unit, hatom rest hrest allowance (by omega)]
  rfl

theorem atom_of_bare {char : Char} (hbare : isBareCharacter char = true) (rest : List Char)
    (allowance : Nat) :
    (atom (allowance + 1) (char :: rest) : Except Failure (Taken (Expansion P))) = do
      let (word, rest) ← bareWord (char :: rest)
      return (.literal (String.ofList word), rest) := by
  have hother : ∀ stop ∈ wordStops, ∀ more, char :: rest = stop :: more → False := by
    rintro stop hstop more ⟨⟩
    exact (isBareCharacter_iff.mp hbare).1 hstop
  rw [atom]
  all_goals exact fun more => hother _ (by decide) _

theorem readsAsUnit_literal {text : String} (hlegible : IsLegible (.literal text : Expansion P)) :
    ReadsAsUnit (.literal text : Expansion P) := by
  have hstarts := Legible.startsUnit (.literal hlegible)
  refine readsAsUnit_of_atom hstarts fun rest hrest allowance hallowance => ?_
  obtain ⟨char, others, hprint, -⟩ := hstarts
  rw [hprint, List.length_cons] at hallowance
  obtain ⟨allowance, rfl⟩ := Nat.exists_eq_succ_of_ne_zero (n := allowance) (by omega)
  rw [Expansion.print_literal] at hprint ⊢
  rcases printLiteral_cases hlegible.hasPlainTexts with ⟨hword, hbare⟩ | ⟨hword, hquote, hback⟩
  · rw [hword] at hprint ⊢
    have hread : bareWord (text.toList ++ rest) = .ok (text.toList, rest) :=
      run_append _ (by rw [hprint]; exact List.cons_ne_nil _ _) hbare hrest
    have hatom := atom_of_bare (P := P) (hbare char (by simp [hprint])) (others ++ rest) allowance
    rw [← List.cons_append, ← hprint, hread] at hatom
    rw [hatom]
    change Except.ok _ = _
    rw [String.ofList_toList]
  · rw [hword, List.cons_append, List.append_assoc, List.singleton_append]
    have hread := quoted_append (show Text.allBlank text.toList = false from hlegible.isWritten)
      hquote hback ('"' :: (text.toList ++ '"' :: rest)) rest
    change (do
      let (word, rest) ← quoted _ (text.toList ++ '"' :: rest)
      return ((.literal (String.ofList word), rest) : Taken (Expansion P))) = _
    rw [hread]
    change Except.ok _ = _
    rw [String.ofList_toList]

/-- What is read from a name between angle brackets. -/
theorem readsAsUnit_named {expansion : Expansion P} (name : String) (hname : IsName name.toList)
    (hprint : expansion.print = Expansion.printName name)
    (hnamed : named name.toList = expansion) : ReadsAsUnit expansion := by
  refine readsAsUnit_of_atom ⟨'<', _, hprint, .inr (by simp)⟩ fun rest _ allowance hallowance => ?_
  rw [hprint, Expansion.printName, List.cons_append, List.length_cons] at hallowance
  obtain ⟨allowance, rfl⟩ := Nat.exists_eq_succ_of_ne_zero (n := allowance) (by omega)
  rw [hprint]
  change (do
    let (name, rest) ← bracketedName (Expansion.printName name ++ rest)
    return (named name, rest)) = _
  rw [bracketedName_printName hname]
  change Except.ok _ = _
  rw [hnamed]

/-! ## Sequences -/

/-- A text is read as an expansion where an alternative ends behind it. -/
def ReadsAsSequence (text : List Char) (expansion : Expansion P) : Prop :=
  ∀ rest, EndsSequence rest → ∀ allowance, 6 * text.length + 3 ≤ allowance →
    ∀ source, skipBlanks source = text ++ rest →
      sequence allowance source = .ok (expansion, skipBlanks rest)

theorem endsAlternative_eq_false {text : List Char} (hstarts : StartsUnit text) :
    endsAlternative text = false := by
  obtain ⟨char, rest, rfl, hopens⟩ := hstarts
  have hother := hopens.not_mem
  simp only [List.mem_cons, not_or] at hother
  simp [endsAlternative, hother]

theorem units_cons {first : Expansion P} (hstarts : StartsUnit first.print)
    (hreads : ReadsAsUnit first) {rest : List Char} (hword : EndsWord rest)
    (hstop : ∀ char ∈ (skipBlanks rest).head?, char ∉ ['*', '+', '?', '{']) {allowance : Nat}
    (hallowance : 6 * first.print.length < allowance) {source : List Char}
    (hsource : skipBlanks source = first.print ++ rest) :
    units (allowance + 1) source = do
      let (others, text) ← units allowance rest
      return (first :: others, text) := by
  obtain ⟨left, hleft, hunit⟩ := hreads rest hword allowance 1 hallowance
  obtain ⟨left, rfl⟩ := Nat.exists_eq_succ_of_ne_zero (n := left) (by omega)
  rw [units, hsource, endsAlternative_eq_false (hstarts.append rest), hunit, marks_of_stop hstop]
  rfl

/-- Printed units are read back up to the end of the alternative. -/
theorem units_print {first : Expansion P} {items : List (Expansion P)}
    (hitems : ∀ item ∈ first :: items, StartsUnit item.print ∧ ReadsAsUnit item)
    {rest : List Char} (hrest : EndsSequence rest) {allowance : Nat}
    (hallowance : 6 * (first.print ++ Expansion.printItems items).length + 2 ≤ allowance)
    {source : List Char}
    (hsource : skipBlanks source = first.print ++ (Expansion.printItems items ++ rest)) :
    units allowance source = .ok (first :: items, skipBlanks rest) := by
  rw [List.length_append] at hallowance
  obtain ⟨allowance, rfl⟩ := Nat.exists_eq_succ_of_ne_zero (n := allowance) (by omega)
  induction items generalizing first allowance source with
  | nil =>
      obtain ⟨hstarts, hreads⟩ := hitems first (List.mem_cons_self ..)
      obtain ⟨last, more, hskip, hlast⟩ := hrest.exists_skipBlanks
      have hstop : ∀ last ∈ [';', '|', ')', ']'],
          last ∉ ['*', '+', '?', '{'] ∧ endsAlternative (last :: more) = true := by
        simp [endsAlternative]
      rw [units_cons hstarts hreads hrest.endsWord (by simpa [hskip] using (hstop last hlast).1)
        (by omega) hsource]
      obtain ⟨allowance, rfl⟩ := Nat.exists_eq_succ_of_ne_zero (n := allowance) (by omega)
      rw [units, hskip, (hstop last hlast).2]
      rfl
  | cons second items ih =>
      obtain ⟨⟨hstarts, hreads⟩, hothers⟩ := List.forall_mem_cons.mp hitems
      simp only [Expansion.printItems_cons, List.length_cons, List.length_append] at hallowance
      have hopens : StartsUnit (second.print ++ (Expansion.printItems items ++ rest)) :=
        (hothers second (List.mem_cons_self ..)).1.append _
      have hskip : skipBlanks (Expansion.printItems (second :: items) ++ rest) =
          second.print ++ (Expansion.printItems items ++ rest) := by
        rw [Expansion.printItems_cons, List.cons_append, List.append_assoc,
          skipBlanks_of_isBlank rfl, hopens.skipBlanks_eq]
      have hstop : ∀ char ∈ (skipBlanks (Expansion.printItems (second :: items) ++ rest)).head?,
          char ∉ ['*', '+', '?', '{'] := by
        rw [hskip]
        obtain ⟨char, more, heq, hfirst⟩ := hopens
        rw [heq]
        rintro _ ⟨⟩ hmark
        exact hfirst.not_mem (List.mem_append_left ['/', ';', '|', ')', ']'] hmark)
      rw [units_cons hstarts hreads (by rintro char ⟨⟩; rfl) hstop (by omega) hsource]
      obtain ⟨allowance, rfl⟩ := Nat.exists_eq_succ_of_ne_zero (n := allowance) (by omega)
      rw [ih hothers hskip allowance (by omega)]
      rfl

theorem sequence_of_units {allowance : Nat} {text rest : List Char} {first : Expansion P}
    {items : List (Expansion P)} (hunits : units allowance text = .ok (first :: items, rest)) :
    sequence (allowance + 1) text = .ok (joinUnits (first :: items), rest) := by
  rw [sequence, hunits]
  rfl

theorem readsAsSequence_unit {unit : Expansion P} (hstarts : StartsUnit unit.print)
    (hreads : ReadsAsUnit unit) : ReadsAsSequence unit.print unit := by
  intro rest hrest allowance hallowance source hsource
  obtain ⟨allowance, rfl⟩ := Nat.exists_eq_succ_of_ne_zero (n := allowance) (by omega)
  have hunits : units allowance source = .ok ([unit], skipBlanks rest) :=
    units_print (List.forall_mem_singleton.mpr ⟨hstarts, hreads⟩) hrest
      (by rw [Expansion.printItems_nil, List.append_nil]; omega) hsource
  exact sequence_of_units hunits

theorem readsAsSequence_items {first second : Expansion P} {items : List (Expansion P)}
    (hitems : ∀ item ∈ first :: second :: items, StartsUnit item.print ∧ ReadsAsUnit item) :
    ReadsAsSequence (first.print ++ Expansion.printItems (second :: items))
      (.sequence (first :: second :: items)) := by
  intro rest hrest allowance hallowance source hsource
  obtain ⟨allowance, rfl⟩ := Nat.exists_eq_succ_of_ne_zero (n := allowance) (by omega)
  rw [List.append_assoc] at hsource
  exact sequence_of_units (units_print hitems hrest (by omega) hsource)

/-! ## Alternations and groups -/

def ReadsAsAlternation (text : List Char) (expansion : Expansion P) : Prop :=
  ∀ close ∈ closers, ∀ rest allowance, 6 * text.length + 5 ≤ allowance →
    ∀ source, skipBlanks source = text ++ close :: rest →
      alternation allowance source = .ok (expansion, close :: rest)

/-- A printed weight starts no comment. -/
theorem skipBlanks_printWeight {given? : Option P}
    (hgiven : ∀ weight ∈ given?, BranchWeight.ReadsBack weight) {text : List Char}
    (hstarts : StartsUnit text) :
    skipBlanks (Expansion.printWeight given? ++ text) =
      Expansion.printWeight given? ++ text := by
  cases given? with
  | none => exact hstarts.skipBlanks_eq
  | some weight =>
      obtain ⟨char, rest, heq, hdigit⟩ := (hgiven weight rfl).isDecimal.exists_cons
      rw [Expansion.printWeight, heq]
      refine skipBlanks_slash ?_ ?_ _
      · rintro rfl
        cases hdigit
      · rintro rfl
        cases hdigit

theorem exists_weight?_printWeight {given? : Option P}
    (hgiven : ∀ weight ∈ given?, BranchWeight.ReadsBack weight) {text : List Char}
    (hstarts : StartsUnit text) :
    ∃ rest, weight? (Expansion.printWeight given? ++ text) = .ok (given?, rest) ∧
      skipBlanks rest = text := by
  cases given? with
  | none =>
      obtain ⟨char, rest, rfl, hopens⟩ := hstarts
      refine ⟨char :: rest, ?_, StartsUnit.skipBlanks_eq ⟨char, rest, rfl, hopens⟩⟩
      rw [Expansion.printWeight, List.nil_append, weight?]
      rintro _ ⟨⟩
      exact hopens.not_mem (by decide)
  | some weight =>
      refine ⟨' ' :: text, ?_, (skipBlanks_of_isBlank rfl _).trans hstarts.skipBlanks_eq⟩
      rw [Expansion.printWeight, List.cons_append, List.cons_append, List.append_assoc]
      exact weight?_append (hgiven weight rfl) (' ' :: text)

theorem branches_cons {given? : Option P}
    (hgiven : ∀ weight ∈ given?, BranchWeight.ReadsBack weight) {text : List Char}
    {body : Expansion P} (hstarts : StartsUnit text) (hreads : ReadsAsSequence text body)
    {rest : List Char} (hrest : EndsSequence rest) {allowance : Nat}
    (hallowance : 6 * text.length + 3 ≤ allowance) {source : List Char}
    (hsource : skipBlanks source = Expansion.printWeight given? ++ (text ++ rest)) :
    branches (allowance + 1) source =
      match skipBlanks rest with
      | '|' :: more => do
          let (others, text) ← branches allowance more
          return (⟨given?, 1, body⟩ :: others, text)
      | more => return ([⟨given?, 1, body⟩], more) := by
  obtain ⟨after, hweight, hafter⟩ := exists_weight?_printWeight hgiven (hstarts.append rest)
  obtain ⟨last, more, hskip, hlast⟩ := hrest.exists_skipBlanks
  have hplain : ∀ last ∈ [';', '|', ')', ']'], Text.isBlank last = false ∧ last ≠ '/' :=
    List.all_iff_forall_prop.mp (by decide)
  have hagain : skipBlanks (skipBlanks rest) = skipBlanks rest := by
    rw [hskip]
    exact skipBlanks_cons (hplain last hlast).1 (hplain last hlast).2 more
  rw [branches, hsource, hweight]
  change (sequence allowance after >>= _) = _
  rw [hreads rest hrest allowance hallowance after hafter]
  change (match skipBlanks (skipBlanks rest) with
    | '|' :: rest => _
    | rest => _) = _
  rw [hagain]

theorem branches_last {given? : Option P}
    (hgiven : ∀ weight ∈ given?, BranchWeight.ReadsBack weight) {text : List Char}
    {body : Expansion P} (hstarts : StartsUnit text) (hreads : ReadsAsSequence text body)
    {close : Char} (hclose : close ∈ closers) {rest : List Char} {allowance : Nat}
    (hallowance : 6 * text.length + 3 ≤ allowance) {source : List Char}
    (hsource : skipBlanks source = Expansion.printWeight given? ++ (text ++ close :: rest)) :
    branches (allowance + 1) source = .ok ([⟨given?, 1, body⟩], close :: rest) := by
  have hbar : close ≠ '|' := by
    rintro rfl
    revert hclose
    decide
  rw [branches_cons hgiven hstarts hreads (endsSequence_closer hclose rest) hallowance hsource,
    skipBlanks_closer hclose]
  split
  · rename_i heq
    exact absurd (List.cons.inj heq).1 hbar
  · rfl

/-- A branch without weight that stands alone is read as what it expands to. -/
theorem readsAsAlternation_sequence {text : List Char} {expansion : Expansion P}
    (hstarts : StartsUnit text) (hreads : ReadsAsSequence text expansion) :
    ReadsAsAlternation text expansion := by
  intro close hclose rest allowance hallowance source hsource
  obtain ⟨allowance, rfl⟩ := Nat.exists_eq_add_of_le' (show 2 ≤ allowance by omega)
  have hnone : ∀ weight ∈ (none : Option P), BranchWeight.ReadsBack weight :=
    fun _ hweight => nomatch hweight
  rw [alternation, branches_last hnone hstarts hreads hclose (by omega) hsource]
  rfl

structure ReadsAsBranch (branch : Branch P (Expansion P)) : Prop where
  probability_eq : branch.probability = 1
  weight : ∀ weight ∈ branch.weight?, BranchWeight.ReadsBack weight
  starts : StartsUnit branch.body.print
  reads : ReadsAsUnit branch.body

/-- Printed branches are read back up to what closes the alternation. -/
theorem branches_print {first : Branch P (Expansion P)} {others : List (Branch P (Expansion P))}
    (hbranches : ∀ branch ∈ first :: others, ReadsAsBranch branch) {close : Char}
    (hclose : close ∈ closers) {rest : List Char} {allowance : Nat}
    (hallowance : 6 * (first.body.print ++ Expansion.printBranches others).length + 4 ≤ allowance)
    {source : List Char}
    (hsource : skipBlanks source = Expansion.printWeight first.weight? ++
      (first.body.print ++ (Expansion.printBranches others ++ close :: rest))) :
    branches allowance source = .ok (first :: others, close :: rest) := by
  rw [List.length_append] at hallowance
  obtain ⟨allowance, rfl⟩ := Nat.exists_eq_succ_of_ne_zero (n := allowance) (by omega)
  induction others generalizing first allowance source with
  | nil =>
      obtain ⟨hprobability, hweight, hstarts, hreads⟩ := hbranches first (List.mem_cons_self ..)
      rw [branches_last hweight hstarts (readsAsSequence_unit hstarts hreads) hclose (by omega)
        hsource, ← hprobability]
  | cons second others ih =>
      obtain ⟨⟨hprobability, hweight, hstarts, hreads⟩, hothers⟩ :=
        List.forall_mem_cons.mp hbranches
      obtain ⟨-, hnext, hopens, -⟩ := hothers second (List.mem_cons_self ..)
      simp only [Expansion.printBranches_cons, List.length_cons, List.length_append] at hallowance
      have hskip : skipBlanks (Expansion.printBranches (second :: others) ++ close :: rest) =
          '|' :: ' ' :: (Expansion.printWeight second.weight? ++
            (second.body.print ++ (Expansion.printBranches others ++ close :: rest))) := by
        simp only [Expansion.printBranches_cons, List.cons_append, List.append_assoc]
        exact (skipBlanks_of_isBlank rfl _).trans (skipBlanks_cons rfl (by decide) _)
      have hends : EndsSequence (Expansion.printBranches (second :: others) ++ close :: rest) :=
        ⟨by rintro char ⟨⟩; rfl, _, _, hskip, by simp⟩
      rw [branches_cons hweight hstarts (readsAsSequence_unit hstarts hreads) hends (by omega)
        hsource, hskip]
      change (do
        let (others, text) ← branches allowance _
        return ((⟨first.weight?, 1, first.body⟩ :: others, text) :
          Taken (List (Branch P (Expansion P))))) = _
      obtain ⟨allowance, rfl⟩ := Nat.exists_eq_succ_of_ne_zero (n := allowance) (by omega)
      rw [ih hothers ((skipBlanks_of_isBlank rfl _).trans
        (skipBlanks_printWeight hnext (hopens.append _))) allowance (by omega), ← hprobability]
      rfl

/-- Several branches, or one with a weight, are read as their alternation. -/
theorem readsAsAlternation_branches {first : Branch P (Expansion P)}
    {others : List (Branch P (Expansion P))}
    (hmany : ∀ probability body, first :: others ≠ [⟨none, probability, body⟩])
    (hbranches : ∀ branch ∈ first :: others, ReadsAsBranch branch) :
    ReadsAsAlternation
      (Expansion.printWeight first.weight? ++ first.body.print ++ Expansion.printBranches others)
      (.alternation (first :: others)) := by
  intro close hclose rest allowance hallowance source hsource
  rw [List.append_assoc, List.length_append] at hallowance
  simp only [List.append_assoc] at hsource
  obtain ⟨allowance, rfl⟩ := Nat.exists_eq_succ_of_ne_zero (n := allowance) (by omega)
  have hjoin : joinBranches (first :: others) = .alternation (first :: others) := by
    unfold joinBranches
    split
    · rename_i heq
      exact absurd heq (hmany _ _)
    · rfl
  rw [alternation, branches_print hbranches hclose (by omega) hsource]
  change Except.ok (joinBranches (first :: others), close :: rest) = _
  rw [hjoin]

/-- What stands between parentheses is read as itself. -/
theorem readsAsUnit_group {text : List Char} {expansion : Expansion P}
    (hprint : expansion.print = '(' :: (text ++ [')']))
    (hskip : ∀ rest, skipBlanks (text ++ rest) = text ++ rest)
    (hreads : ReadsAsAlternation text expansion) : ReadsAsUnit expansion := by
  refine readsAsUnit_of_atom ⟨'(', _, hprint, .inr (by simp)⟩ fun rest _ allowance hallowance => ?_
  rw [hprint, List.length_cons, List.length_append, List.length_singleton] at hallowance
  obtain ⟨allowance, rfl⟩ := Nat.exists_eq_succ_of_ne_zero (n := allowance) (by omega)
  rw [hprint, List.cons_append, List.append_assoc, List.singleton_append, atom,
    hreads ')' (by decide) rest allowance (by omega) _ (hskip _)]
  dsimp only [bind, Except.bind]
  rw [skipBlanks_closer (by decide)]
  rfl

/-- What stands between brackets is read as optional. -/
theorem readsAsUnit_optional {body : Expansion P} (hstarts : StartsUnit body.print)
    (hreads : ReadsAsUnit body) : ReadsAsUnit (.optional body) := by
  have halternation := readsAsAlternation_sequence hstarts (readsAsSequence_unit hstarts hreads)
  refine readsAsUnit_of_atom ⟨'[', _, rfl, .inr (by simp)⟩ fun rest _ allowance hallowance => ?_
  rw [Expansion.print_optional, List.length_cons, List.length_append,
    List.length_singleton] at hallowance
  obtain ⟨allowance, rfl⟩ := Nat.exists_eq_succ_of_ne_zero (n := allowance) (by omega)
  rw [Expansion.print_optional, List.cons_append, List.append_assoc,
    List.singleton_append, atom, halternation ']' (by decide) rest allowance (by omega) _
      (hstarts.append _).skipBlanks_eq]
  dsimp only [bind, Except.bind]
  rw [skipBlanks_closer (by decide)]
  rfl

/-! ## All expansions -/

theorem readsAsUnit_sequence {items : List (Expansion P)}
    (hgood : IsLegible (.sequence items : Expansion P))
    (hitems : ∀ item ∈ items, StartsUnit item.print ∧ ReadsAsUnit item) :
    ReadsAsUnit (.sequence items) := by
  match items with
  | [] => exact readsAsUnit_named "NULL" ⟨by decide, List.all_eq_true.mp rfl⟩ rfl rfl
  | [_] => exact absurd rfl hgood.isWritten
  | first :: second :: items =>
      have hstarts := (hitems first (List.mem_cons_self ..)).1.append
        (Expansion.printItems (second :: items))
      refine readsAsUnit_group (Expansion.print_sequence_cons ..)
        (fun rest => (hstarts.append rest).skipBlanks_eq) ?_
      exact readsAsAlternation_sequence hstarts (readsAsSequence_items hitems)

theorem readsAsUnit_alternation {branches : List (Branch P (Expansion P))}
    (hgood : IsLegible (.alternation branches : Expansion P))
    (hbranches : ∀ branch ∈ branches, StartsUnit branch.body.print ∧ ReadsAsUnit branch.body) :
    ReadsAsUnit (.alternation branches) := by
  cases branches with
  | nil => exact readsAsUnit_named "VOID" ⟨by decide, List.all_eq_true.mp rfl⟩ rfl rfl
  | cons first others =>
      obtain ⟨hmany, hwritten⟩ := hgood.isWritten
      have hall : ∀ branch ∈ first :: others, ReadsAsBranch branch := fun branch hbranch =>
        ⟨(hwritten branch hbranch).1, hgood.readsBack branch hbranch,
          (hbranches branch hbranch).1, (hbranches branch hbranch).2⟩
      obtain ⟨-, hweight, hstarts, -⟩ := hall first (List.mem_cons_self ..)
      refine readsAsUnit_group (Expansion.print_alternation_cons first others) (fun rest => ?_)
        (readsAsAlternation_branches hmany hall)
      rw [List.append_assoc, List.append_assoc]
      exact skipBlanks_printWeight hweight (hstarts.append _)

theorem readsAsUnit_repetition {body : Expansion P} {least : Nat} {most? : Option Nat}
    (hgood : IsLegible (.repetition body least most? : Expansion P)) (hbody : ReadsAsUnit body) :
    ReadsAsUnit (.repetition body least most?) := by
  obtain ⟨hleast, rfl⟩ := hgood.isWritten
  intro rest hrest allowance more hallowance
  rw [Expansion.print_repetition, List.length_append] at hallowance
  rw [Expansion.print_repetition, List.append_assoc]
  match least, hleast with
  | 0, _ =>
      obtain ⟨left, hleft, hunit⟩ := hbody ('*' :: rest) (by rintro char ⟨⟩; rfl) allowance
        (more + 1) (by simp [Expansion.printBounds] at hallowance; omega)
      obtain ⟨left, rfl⟩ := Nat.exists_eq_succ_of_ne_zero (n := left) (by omega)
      refine ⟨left, by omega, hunit.trans ?_⟩
      rw [marks, skipBlanks_cons rfl (by decide)]
      rfl
  | 1, _ =>
      obtain ⟨left, hleft, hunit⟩ := hbody ('+' :: rest) (by rintro char ⟨⟩; rfl) allowance
        (more + 1) (by simp [Expansion.printBounds] at hallowance; omega)
      obtain ⟨left, rfl⟩ := Nat.exists_eq_succ_of_ne_zero (n := left) (by omega)
      refine ⟨left, by omega, hunit.trans ?_⟩
      rw [marks, skipBlanks_cons rfl (by decide)]
      rfl

theorem readsAsUnit_tagged {body : Expansion P} {tags : List Tag}
    (hgood : IsLegible (.tagged body tags : Expansion P)) (hbody : ReadsAsUnit body) :
    ReadsAsUnit (.tagged body tags) := by
  obtain ⟨hinner, hne, hwritten⟩ := hgood.isWritten
  intro rest hrest allowance more hallowance
  rw [Expansion.print_tagged, List.length_append] at hallowance
  rw [Expansion.print_tagged, List.append_assoc]
  have hword : EndsWord (Expansion.printTags tags ++ rest) := by
    obtain ⟨tag, others, rfl⟩ := List.exists_cons_of_ne_nil hne
    rintro char ⟨⟩
    rfl
  obtain ⟨left, hleft, hunit⟩ := hbody _ hword allowance
    (more + 6 * (Expansion.printTags tags).length) (by omega)
  obtain ⟨last, hlast, hmarks⟩ := exists_marks_printTags
    (fun tag htag => ⟨hwritten tag htag, hgood.hasPlainTexts tag htag⟩) more rest body left
    (by omega)
  refine ⟨last, hlast, hunit.trans (hmarks.trans ?_)⟩
  rw [foldl_attach hinner hne]

/-- Every printed expansion is read back as the unit before the marks that follow. -/
theorem Legible.readsAsUnit {expansion : Expansion P} (hlegible : Legible expansion) :
    ReadsAsUnit expansion := by
  induction hlegible with
  | literal hgood => exact readsAsUnit_literal hgood
  | @reference link hgood =>
      obtain ⟨hunbound, hname, hnull, hvoid⟩ := hgood.isWritten
      refine readsAsUnit_named _ hname rfl ?_
      rw [named, if_neg (fun heq => hnull (String.toList_inj.mp heq)),
        if_neg (fun heq => hvoid (String.toList_inj.mp heq)), String.ofList_toList, ← hunbound]
  | sequence hgood hitems ih =>
      exact readsAsUnit_sequence hgood fun item hitem =>
        ⟨Legible.startsUnit (hitems item hitem), ih item hitem⟩
  | alternation hgood hbranches ih =>
      exact readsAsUnit_alternation hgood fun branch hbranch =>
        ⟨Legible.startsUnit (hbranches branch hbranch), ih branch hbranch⟩
  | repetition hgood _ ih => exact readsAsUnit_repetition hgood ih
  | optional hgood hbody ih => exact readsAsUnit_optional (Legible.startsUnit hbody) ih
  | tagged hgood _ ih => exact readsAsUnit_tagged hgood ih

/-- A printed rule body is read back up to its semicolon. -/
theorem body_print {expansion : Expansion P} (hlegible : Legible expansion)
    (rest : List Char) :
    body (' ' :: (expansion.print ++ ';' :: rest)) = .ok (expansion, rest) := by
  have hstarts := hlegible.startsUnit
  have halternation := readsAsAlternation_sequence hstarts
    (readsAsSequence_unit hstarts hlegible.readsAsUnit) ';' (by decide) rest
    (allowanceFor (' ' :: (expansion.print ++ ';' :: rest)))
    (by simp only [allowanceFor, List.length_cons, List.length_append]; omega)
    (' ' :: (expansion.print ++ ';' :: rest))
    ((skipBlanks_of_isBlank rfl _).trans (hstarts.append _).skipBlanks_eq)
  rw [body, halternation]
  dsimp only [bind, Except.bind]
  rw [skipBlanks_closer (by decide)]
  rfl

end SpeechGrammar.Source
