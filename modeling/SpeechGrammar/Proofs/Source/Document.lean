import SpeechGrammar.Proofs.Printing.Document
import SpeechGrammar.Proofs.Source.Keyword
import SpeechGrammar.Proofs.Source.Recognition

/-!
# The grammar of whole texts

A grammar text is a mark, a name, imports and rules, of which all may be
missing, with gaps between them.  Everything but the mark is read just as it is
spelled.  Of the mark only the end is looked for: whatever stands in front of
the next semicolon is passed over.
-/

namespace SpeechGrammar.Source

/-- A number of bare words with gaps in front of them, and a gap behind them. -/
inductive AreWords : Nat → List Char → Prop where
  | nil {gap : List Char} (hgap : IsGap gap) : AreWords 0 gap
  | cons {count : Nat} {gap word rest : List Char} (hgap : IsGap gap) (hapart : gap ≠ [])
      (hne : word ≠ []) (hbare : ∀ char ∈ word, isBareCharacter char = true)
      (hrest : AreWords count rest) : AreWords (count + 1) (gap ++ (word ++ rest))

/-- What a mark should say: the version, and perhaps an encoding or an encoding and a locale. -/
def IsVersion (inside : List Char) : Prop :=
  ∃ gap rest count, IsGap gap ∧ gap ≠ [] ∧ AreWords count rest ∧ count ≤ 2 ∧
    inside = gap ++ ("V1.0".toList ++ rest)

/-- A text with a mark in front, or none, and what follows it. -/
inductive HasMark (isInside : List Char → Prop) : List Char → List Char → Prop where
  | absent (text : List Char) : HasMark isInside text text
  | present {gap inside : List Char} (hgap : IsGap gap) (hinside : isInside inside)
      (hsemicolon : ';' ∉ inside) (rest : List Char) :
      HasMark isInside (gap ++ ("#JSGF".toList ++ (inside ++ ';' :: rest))) rest

def StartsWithName (name : String) (text rest : List Char) : Prop :=
  ∃ gap last, IsGap gap ∧ IsGap last ∧ IsGrammarName name.toList ∧
    EndsKeyword (gap ++ name.toList) ∧
    text = "grammar".toList ++ (gap ++ (name.toList ++ (last ++ ';' :: rest)))

/-- A text with the declaration of a grammar's name in front, or none, and what follows it. -/
inductive HasName : Option String → List Char → List Char → Prop where
  | absent (text : List Char) : HasName none text text
  | present {name : String} {gap text rest : List Char} (hgap : IsGap gap)
      (hname : StartsWithName name text rest) : HasName (some name) (gap ++ text) rest

def StartsWithImport (name : String) (text rest : List Char) : Prop :=
  ∃ gap last, IsGap gap ∧ IsGap last ∧ IsName name.toList ∧
    text = "import".toList ++ (gap ++ '<' :: (name.toList ++ '>' :: (last ++ ';' :: rest)))

/-- A text with import declarations in front, and what follows them. -/
inductive HasImports : List String → List Char → List Char → Prop where
  | nil (text : List Char) : HasImports [] text text
  | cons {name : String} {names : List String} {gap text after rest : List Char} (hgap : IsGap gap)
      (hname : StartsWithImport name text after) (hnames : HasImports names after rest) :
      HasImports (name :: names) (gap ++ text) rest

def StartsWithHead (head : Head) (text rest : List Char) : Prop :=
  head.IsWritten ∧ ∃ gap last, IsGap gap ∧ IsGap last ∧
    text = (if head.isPublic then "public".toList else []) ++
      (gap ++ '<' :: (head.name.toList ++ '>' :: (last ++ '=' :: rest)))

variable {P : Type} [BranchWeight P]

inductive HasRules : List (Head × Expansion P) → List Char → Prop where
  | nil {ending : List Char} (hending : IsEnding ending) : HasRules [] ending
  | cons {head : Head} {expansion : Expansion P} {rules : List (Head × Expansion P)}
      {gap text written rest : List Char} (hgap : IsGap gap)
      (hhead : StartsWithHead head text (written ++ ';' :: rest))
      (hbody : Derives written expansion) (hrules : HasRules rules rest) :
      HasRules ((head, expansion) :: rules) (gap ++ text)

def IsGrammarText (isInside : List Char → Prop) (header : Header)
    (rules : List (Head × Expansion P)) (text : List Char) : Prop :=
  ∃ unmarked unnamed rest, HasMark isInside text unmarked ∧
    HasName header.name? unmarked unnamed ∧ HasImports header.imports unnamed rest ∧
    HasRules rules rest

/-! ## Headers -/

section Header

omit [BranchWeight P]

/-- The name of a grammar is declared where the declaration is spelled. -/
theorem startsWithName_iff {name : String} {text rest : List Char} :
    StartsWithName name text rest ↔ ∃ afterKeyword afterName,
      keyword? "grammar".toList text = some afterKeyword ∧
      grammarName (skipBlanks afterKeyword) = .ok (name.toList, afterName) ∧
      character ';' (skipBlanks afterName) = .ok rest := by
  constructor
  · rintro ⟨gap, last, hgap, hlast, hname, hapart, rfl⟩
    refine ⟨_, last ++ ';' :: rest,
      keyword?_eq_some_iff.mpr ⟨rfl, (endsKeyword_append_iff hname.1).mpr hapart⟩, ?_,
      (character_skipBlanks_eq_ok_iff rfl (by decide)).mpr ⟨last, hlast, rfl⟩⟩
    have hstop : ∀ char ∈ (last ++ ';' :: rest).head?, isGrammarNameCharacter char = false := by
      refine hlast.forall_head? (fun char hblank => ?_) (by decide) ?_
      · refine Bool.eq_false_iff.mpr fun hchar => ?_
        rw [isBlank_of_isGrammarNameCharacter hchar] at hblank
        cases hblank
      · rintro _ ⟨⟩
        decide
    obtain ⟨char, more, hspelled⟩ := List.exists_cons_of_ne_nil hname.1
    have hchar := hname.2 char (by rw [hspelled]; exact List.mem_cons_self ..)
    have hskip : skipBlanks (name.toList ++ (last ++ ';' :: rest)) =
        name.toList ++ (last ++ ';' :: rest) := by
      rw [hspelled]
      refine skipBlanks_cons (isBlank_of_isGrammarNameCharacter hchar) ?_ _
      rintro rfl
      cases hchar
    rw [hgap.skipBlanks_append, hskip]
    exact run_append _ hname.1 hname.2 hstop
  · rintro ⟨afterKeyword, afterName, hkeyword, hname, hend⟩
    obtain ⟨rfl, hapart⟩ := keyword?_eq_some_iff.mp hkeyword
    obtain ⟨hne, hchars, -, hskip⟩ := run_eq_ok_iff.mp hname
    obtain ⟨last, hlast, rfl⟩ := (character_skipBlanks_eq_ok_iff rfl (by decide)).mp hend
    obtain ⟨gap, hgap, rfl⟩ :=
      exists_gap_of_skipBlanks_eq hskip (List.append_ne_nil_of_left_ne_nil hne _)
    exact ⟨gap, last, hgap, hlast, ⟨hne, hchars⟩, (endsKeyword_append_iff hne).mp hapart, rfl⟩

theorem startsWithImport_iff {name : String} {text rest : List Char} :
    StartsWithImport name text rest ↔ ∃ afterKeyword afterName,
      keyword? "import".toList text = some afterKeyword ∧
      bracketedName (skipBlanks afterKeyword) = .ok (name.toList, afterName) ∧
      character ';' (skipBlanks afterName) = .ok rest := by
  constructor
  · rintro ⟨gap, last, hgap, hlast, hname, rfl⟩
    exact ⟨_, _, keyword?_eq_some_iff.mpr ⟨rfl, endsKeyword_bracket hgap _⟩,
      bracketedName_skipBlanks_eq_ok_iff.mpr ⟨gap, hgap, hname, rfl⟩,
      (character_skipBlanks_eq_ok_iff rfl (by decide)).mpr ⟨last, hlast, rfl⟩⟩
  · rintro ⟨afterKeyword, afterName, hkeyword, hbracket, hend⟩
    obtain ⟨rfl, -⟩ := keyword?_eq_some_iff.mp hkeyword
    obtain ⟨gap, hgap, hname, rfl⟩ := bracketedName_skipBlanks_eq_ok_iff.mp hbracket
    obtain ⟨last, hlast, rfl⟩ := (character_skipBlanks_eq_ok_iff rfl (by decide)).mp hend
    exact ⟨gap, last, hgap, hlast, hname, rfl⟩

theorem skipBlanks_mark (rest : List Char) :
    skipBlanks ("#JSGF".toList ++ rest) = "#JSGF".toList ++ rest := by
  have hspelled : "#JSGF".toList = '#' :: "JSGF".toList := by decide
  rw [hspelled]
  exact skipBlanks_cons rfl (by decide) _

/-- A mark is dropped where it is spelled, whatever is inside. -/
theorem skipMark_eq_ok_iff {text rest : List Char} :
    skipMark text = .ok rest ↔
      (dropStart? "#JSGF".toList text = none ∧ text = rest) ∨
        ∃ inside, ';' ∉ inside ∧ text = "#JSGF".toList ++ (inside ++ ';' :: rest) := by
  rw [skipMark]
  cases hdrop : dropStart? "#JSGF".toList text with
  | none =>
      constructor
      · rintro ⟨⟩
        exact .inl ⟨rfl, rfl⟩
      · rintro (⟨-, rfl⟩ | ⟨inside, -, rfl⟩)
        · rfl
        · rw [dropStart?_append] at hdrop
          cases hdrop
  | some marked =>
      obtain rfl := dropStart?_eq_some_iff.mp hdrop
      dsimp only
      cases hcut : Text.cutFirst? ';' marked with
      | none =>
          have habsent := Text.cutFirst?_eq_none_iff.mp hcut
          constructor
          · rintro ⟨⟩
          · rintro (⟨hnone, -⟩ | ⟨inside, -, heq⟩)
            · cases hnone
            · rw [List.append_cancel_left heq] at habsent
              simp at habsent
      | some parts =>
          obtain ⟨inside, after⟩ := parts
          obtain ⟨rfl, hinside⟩ := Text.eq_append_of_cutFirst? hcut
          constructor
          · rintro ⟨⟩
            exact .inr ⟨inside, hinside, rfl⟩
          · rintro (⟨hnone, -⟩ | ⟨other, hother, heq⟩)
            · cases hnone
            · rw [List.append_cancel_left heq, Text.cutFirst?_append hother] at hcut
              obtain ⟨-, rfl⟩ := Prod.mk.inj (Option.some.inj hcut)
              rfl

theorem hasName_of_nameDeclaration {text rest : List Char} {name? : Option String}
    (hread : nameDeclaration (skipBlanks text) = .ok (name?, rest)) :
    ∃ after, HasName name? text after ∧ skipBlanks after = skipBlanks rest := by
  unfold nameDeclaration at hread
  split at hread
  · obtain ⟨rfl, rfl⟩ := Prod.mk.inj (Except.ok.inj hread)
    exact ⟨text, .absent text, (skipBlanks_skipBlanks text).symm⟩
  · rename_i afterKeyword hkeyword
    obtain ⟨⟨name, afterName⟩, hname, hread⟩ := bind_eq_ok_iff.mp hread
    obtain ⟨last, hend, hread⟩ := bind_eq_ok_iff.mp hread
    obtain ⟨rfl, rfl⟩ := Prod.mk.inj (Except.ok.inj hread)
    rw [← String.toList_ofList (l := name)] at hname
    have hstarts := startsWithName_iff.mpr ⟨_, _, hkeyword, hname, hend⟩
    obtain ⟨gap, hgap, htext⟩ := exists_gap_of_keyword? (by decide) hkeyword
    rw [htext]
    exact ⟨last, .present hgap hstarts, rfl⟩

theorem hasImports_of_importDeclarations {allowance : Nat} {source rest : List Char}
    {names : List String} (hread : importDeclarations allowance source = .ok (names, rest))
    {text : List Char} (htext : skipBlanks text = skipBlanks source) :
    ∃ after, HasImports names text after ∧ skipBlanks after = skipBlanks rest := by
  induction allowance generalizing source text names with
  | zero =>
      obtain ⟨rfl, rfl⟩ := Prod.mk.inj (Except.ok.inj hread)
      exact ⟨text, .nil text, htext⟩
  | succ allowance ih =>
      rw [importDeclarations, ← htext] at hread
      dsimp only at hread
      split at hread
      · obtain ⟨rfl, rfl⟩ := Prod.mk.inj (Except.ok.inj hread)
        exact ⟨text, .nil text, (skipBlanks_skipBlanks text).symm⟩
      · rename_i afterKeyword hkeyword
        obtain ⟨⟨name, afterName⟩, hname, hread⟩ := bind_eq_ok_iff.mp hread
        obtain ⟨last, hend, hread⟩ := bind_eq_ok_iff.mp hread
        obtain ⟨⟨others, left⟩, hothers, hread⟩ := bind_eq_ok_iff.mp hread
        obtain ⟨rfl, rfl⟩ := Prod.mk.inj (Except.ok.inj hread)
        rw [← String.toList_ofList (l := name)] at hname
        have hstarts := startsWithImport_iff.mpr ⟨_, _, hkeyword, hname, hend⟩
        obtain ⟨after, hnames, hgap⟩ := ih hothers rfl
        obtain ⟨gap, hbefore, hspelled⟩ := exists_gap_of_keyword? (by decide) hkeyword
        rw [hspelled]
        exact ⟨after, .cons hbefore hstarts hnames, hgap⟩

theorem hasMark_of_skipMark {text rest : List Char}
    (hread : skipMark (skipBlanks text) = .ok rest) :
    ∃ after, HasMark (fun _ => True) text after ∧ skipBlanks after = skipBlanks rest := by
  rcases skipMark_eq_ok_iff.mp hread with ⟨-, rfl⟩ | ⟨inside, hinside, htext⟩
  · exact ⟨text, .absent text, (skipBlanks_skipBlanks text).symm⟩
  · obtain ⟨gap, hgap, rfl⟩ :=
      exists_gap_of_skipBlanks_eq htext (List.append_ne_nil_of_left_ne_nil (by decide) _)
    exact ⟨rest, .present hgap trivial hinside rest, rfl⟩

end Header

/-! ## Rules -/

section Rules

omit [BranchWeight P] in
theorem startsWithHead_of_head {text rest : List Char} {found : Head}
    (hread : head text = .ok (found, rest)) : StartsWithHead found text rest := by
  have hwritten := yields_head text found rest hread
  obtain ⟨⟨name, afterName⟩, hname, hread⟩ := bind_eq_ok_iff.mp hread
  dsimp only at hread
  split at hread
  · cases hread
  · obtain ⟨left, hend, hread⟩ := bind_eq_ok_iff.mp hread
    obtain ⟨rfl, rfl⟩ := Prod.mk.inj (Except.ok.inj hread)
    obtain ⟨gap, hgap, -, hbracket⟩ := bracketedName_skipBlanks_eq_ok_iff.mp hname
    obtain ⟨last, hlast, rfl⟩ := (character_skipBlanks_eq_ok_iff rfl (by decide)).mp hend
    have htext : text = (if (keyword? "public".toList text).isSome then "public".toList else []) ++
        (gap ++ '<' :: ((String.ofList name).toList ++ '>' :: (last ++ '=' :: left))) := by
      rw [String.toList_ofList (l := name), ← hbracket]
      cases hkeyword : keyword? "public".toList text with
      | none => rfl
      | some after => exact (keyword?_eq_some_iff.mp hkeyword).1
    exact ⟨hwritten, gap, last, hgap, hlast, htext⟩

omit [BranchWeight P] in
theorem keyword?_public {gap : List Char} (hgap : IsGap gap) (isPublic : Bool)
    (rest : List Char) :
    keyword? "public".toList ((if isPublic then "public".toList else []) ++ (gap ++ '<' :: rest)) =
      if isPublic then some (gap ++ '<' :: rest) else none := by
  cases isPublic with
  | true => exact keyword?_eq_some_iff.mpr ⟨rfl, endsKeyword_bracket hgap rest⟩
  | false =>
      have hspelled : "public".toList = 'p' :: "ublic".toList := by decide
      rw [hspelled]
      refine keyword?_eq_none (hgap.forall_head? (fun char hblank => ?_) (by decide) ?_) _
      · rintro rfl
        cases hblank
      · rintro _ ⟨⟩
        decide

omit [BranchWeight P] in
theorem StartsWithHead.head_eq_ok {text rest : List Char} {found : Head}
    (hhead : StartsWithHead found text rest) : head text = .ok (found, rest) := by
  obtain ⟨⟨hname, hfree⟩, gap, last, hgap, hlast, rfl⟩ := hhead
  obtain ⟨isPublic, name⟩ := found
  have hbracket : bracketedName (skipBlanks (gap ++
      '<' :: (name.toList ++ '>' :: (last ++ '=' :: rest)))) =
        .ok (name.toList, last ++ '=' :: rest) :=
    bracketedName_skipBlanks_eq_ok_iff.mpr ⟨gap, hgap, hname, rfl⟩
  have hend : character '=' (skipBlanks (last ++ '=' :: rest)) = .ok rest :=
    (character_skipBlanks_eq_ok_iff rfl (by decide)).mpr ⟨last, hlast, rfl⟩
  rw [head, keyword?_public hgap]
  cases isPublic
  all_goals
    refine bind_eq_ok_iff.mpr ⟨_, hbracket, ?_⟩
    dsimp only
    rw [String.ofList_toList, if_neg (not_or.mpr hfree)]
    exact bind_eq_ok_iff.mpr ⟨_, hend, rfl⟩

omit [BranchWeight P] in
theorem head_eq_ok_iff {text rest : List Char} {found : Head} :
    head text = .ok (found, rest) ↔ StartsWithHead found text rest :=
  ⟨startsWithHead_of_head, StartsWithHead.head_eq_ok⟩

omit [BranchWeight P] in
theorem StartsWithHead.skipBlanks {head : Head} {text rest : List Char}
    (hhead : StartsWithHead head text rest) :
    StartsWithHead head (skipBlanks text) rest ∧ StartsRule (skipBlanks text) ∧
      skipBlanks text ≠ [] := by
  obtain ⟨hwritten, gap, last, hgap, hlast, htext⟩ := hhead
  cases hpublic : head.isPublic with
  | true =>
      rw [hpublic, if_pos rfl] at htext
      have hspelled : "public".toList = 'p' :: "ublic".toList := by decide
      have hskip : Source.skipBlanks text = text := by
        rw [htext, hspelled]
        exact skipBlanks_cons rfl (by decide) _
      rw [hskip]
      refine ⟨⟨hwritten, gap, last, hgap, hlast, by rw [hpublic, if_pos rfl, htext]⟩, ?_, ?_⟩
      · rw [htext, hspelled]
        rintro _ ⟨⟩
        decide
      · rw [htext, hspelled]
        exact List.cons_ne_nil _ _
  | false =>
      rw [hpublic, if_neg Bool.false_ne_true, List.nil_append] at htext
      have hskip : Source.skipBlanks text =
          '<' :: (head.name.toList ++ '>' :: (last ++ '=' :: rest)) :=
        (skipBlanks_eq_cons_iff rfl (by decide)).mpr ⟨gap, hgap, htext⟩
      rw [hskip]
      refine ⟨⟨hwritten, [], last, .nil, hlast, ?_⟩, ?_, List.cons_ne_nil _ _⟩
      · rw [hpublic, if_neg Bool.false_ne_true]
        rfl
      · rintro _ ⟨⟩
        decide

omit [BranchWeight P] in
theorem StartsWithHead.length_lt {head : Head} {text rest : List Char}
    (hhead : StartsWithHead head text rest) : rest.length < text.length := by
  obtain ⟨-, gap, last, -, -, rfl⟩ := hhead
  simp only [List.length_append, List.length_cons]
  omega

theorem HasRules.startsRule {rules : List (Head × Expansion P)} {text : List Char}
    (hrules : HasRules rules text) : StartsRule (skipBlanks text) := by
  cases hrules with
  | nil hending =>
      rw [hending.skipBlanks_eq_nil]
      exact fun _ hchar => nomatch hchar
  | cons hgap hhead _ _ =>
      rw [hgap.skipBlanks_append]
      exact hhead.skipBlanks.2.1

theorem HasRules.forall₂_statements {rules : List (Head × Expansion P)} {text : List Char}
    (hrules : HasRules rules text) {allowance : Nat}
    (hallowance : (skipBlanks text).length < allowance) :
    List.Forall₂ Statement.Reads (statements allowance text) rules := by
  obtain ⟨allowance, rfl⟩ := Nat.exists_eq_succ_of_ne_zero (Nat.ne_zero_of_lt hallowance)
  induction hrules generalizing allowance with
  | nil hending =>
      rw [statements, hending.skipBlanks_eq_nil]
      exact .nil
  | @cons head expansion rules gap text written rest hgap hhead hbody _ ih =>
      obtain ⟨hstarts, -, hne⟩ := hhead.skipBlanks
      have hlength := hstarts.length_lt
      have hskip := length_skipBlanks_le rest
      rw [hgap.skipBlanks_append] at hallowance
      simp only [List.length_append, List.length_cons] at hlength
      obtain ⟨allowance, rfl⟩ := Nat.exists_eq_succ_of_ne_zero (n := allowance) (by omega)
      rw [statements, hgap.skipBlanks_append, if_neg (by simpa using hne),
        head_eq_ok_iff.mpr hstarts]
      dsimp only
      rw [hbody.body_append]
      exact .cons ⟨_, rfl⟩ (ih allowance (by omega))

theorem hasRules_of_statements {rules : List (Head × Expansion P)} {allowance : Nat}
    {text : List Char} (hallowance : (skipBlanks text).length < allowance)
    (hreads : List.Forall₂ Statement.Reads (statements allowance text) rules) :
    HasRules rules text := by
  induction allowance generalizing text rules with
  | zero => exact absurd hallowance (Nat.not_lt_zero _)
  | succ allowance ih =>
      rw [statements] at hreads
      split at hreads
      · rename_i hempty
        cases hreads
        exact .nil (isEnding_of_skipBlanks text (List.isEmpty_iff.mp hempty))
      · rename_i hsome
        obtain ⟨gap, hgap, htext⟩ := exists_gap_of_skipBlanks_eq rfl (by simpa using hsome)
        split at hreads
        · cases hreads with
          | cons hfirst _ =>
              obtain ⟨remaining, heq⟩ := hfirst
              cases heq
        · rename_i found afterHead hhead
          have hstarts := head_eq_ok_iff.mp hhead
          split at hreads
          · rename_i expansion after hbody
            cases hreads with
            | cons hfirst hothers =>
                obtain ⟨remaining, heq⟩ := hfirst
                cases heq
                obtain ⟨written, hderives, rfl⟩ := body_eq_ok_iff.mp hbody
                have hlength := hstarts.length_lt
                have hskip := length_skipBlanks_le after
                simp only [List.length_append, List.length_cons] at hlength
                rw [htext]
                exact .cons hgap hstarts hderives (ih (by omega) hothers)
          · cases hreads with
            | cons hfirst _ =>
                obtain ⟨remaining, heq⟩ := hfirst
                cases heq

theorem statements_congr {text other : List Char} (hgap : skipBlanks text = skipBlanks other)
    (allowance : Nat) : (statements allowance text : List (Statement P)) =
      statements allowance other := by
  cases allowance with
  | zero => rfl
  | succ allowance => rw [statements, statements, hgap]

end Rules

/-! ## Whole texts -/

section Whole

omit [BranchWeight P]

theorem HasImports.startsLine {names : List String} {text rest : List Char}
    (himports : HasImports names text rest) (hrest : StartsRule (skipBlanks rest)) :
    StartsLine (skipBlanks text) := by
  cases himports with
  | nil => exact hrest.startsLine
  | cons hgap hname _ =>
      obtain ⟨gap, last, -, -, -, rfl⟩ := hname
      have hspelled : "import".toList = 'i' :: "mport".toList := by decide
      rw [hgap.skipBlanks_append, hspelled, List.cons_append, skipBlanks_cons rfl (by decide)]
      rintro _ ⟨⟩
      decide

theorem HasImports.importDeclarations_eq_ok {names : List String} {text rest : List Char}
    (himports : HasImports names text rest) (hrest : StartsRule (skipBlanks rest))
    {source : List Char} (hsource : skipBlanks source = skipBlanks text) {allowance : Nat}
    (hallowance : (skipBlanks text).length < allowance) :
    importDeclarations allowance source = .ok (names, skipBlanks rest) := by
  obtain ⟨allowance, rfl⟩ := Nat.exists_eq_succ_of_ne_zero (Nat.ne_zero_of_lt hallowance)
  induction himports generalizing allowance source with
  | nil =>
      rw [importDeclarations, hsource]
      dsimp only
      rw [hrest.keyword?_import]
  | @cons name names gap text after rest hgap hname _ ih =>
      obtain ⟨afterKeyword, afterName, hkeyword, hbracket, hend⟩ := startsWithImport_iff.mp hname
      obtain ⟨inner, last, -, -, -, htext⟩ := hname
      have hspelled : "import".toList = 'i' :: "mport".toList := by decide
      have hskip : skipBlanks text = text := by
        rw [htext, hspelled]
        exact skipBlanks_cons rfl (by decide) _
      have hafter := length_skipBlanks_le after
      rw [hgap.skipBlanks_append, hskip] at hsource hallowance
      rw [htext] at hallowance
      simp only [List.length_append, List.length_cons] at hallowance
      obtain ⟨allowance, rfl⟩ := Nat.exists_eq_succ_of_ne_zero (n := allowance) (by omega)
      rw [importDeclarations, hsource]
      dsimp only
      rw [hkeyword]
      refine bind_eq_ok_iff.mpr ⟨_, hbracket, bind_eq_ok_iff.mpr ⟨_, hend, ?_⟩⟩
      refine bind_eq_ok_iff.mpr ⟨_, ih hrest rfl allowance (by omega), ?_⟩
      rw [String.ofList_toList]
      rfl

theorem HasName.exists_nameDeclaration {name? : Option String} {text rest : List Char}
    (hname : HasName name? text rest) (hrest : StartsLine (skipBlanks rest)) :
    (∀ char ∈ (skipBlanks text).head?, char ∈ ['g', 'i', 'p', '<']) ∧
      ∃ after, nameDeclaration (skipBlanks text) = .ok (name?, after) ∧
        skipBlanks after = skipBlanks rest := by
  cases hname with
  | absent =>
      refine ⟨fun char hchar => List.mem_cons_of_mem 'g' (hrest char hchar), skipBlanks text, ?_,
        skipBlanks_skipBlanks text⟩
      rw [nameDeclaration, hrest.keyword?_grammar]
  | @present name gap text rest hgap hname =>
      obtain ⟨afterKeyword, afterName, hkeyword, hread, hend⟩ := startsWithName_iff.mp hname
      obtain ⟨inner, last, -, -, -, -, htext⟩ := hname
      have hspelled : "grammar".toList = 'g' :: "rammar".toList := by decide
      have hskip : skipBlanks text = text := by
        rw [htext, hspelled]
        exact skipBlanks_cons rfl (by decide) _
      rw [hgap.skipBlanks_append, hskip]
      constructor
      · rw [htext, hspelled]
        rintro _ ⟨⟩
        decide
      · refine ⟨rest, ?_, rfl⟩
        rw [nameDeclaration, hkeyword]
        refine bind_eq_ok_iff.mpr ⟨_, hread, bind_eq_ok_iff.mpr ⟨_, hend, ?_⟩⟩
        rw [String.ofList_toList]
        rfl

theorem dropStart?_mark_eq_none {text : List Char}
    (hstarts : ∀ char ∈ text.head?, char ∈ ['g', 'i', 'p', '<']) :
    dropStart? "#JSGF".toList text = none := by
  have hspelled : "#JSGF".toList = '#' :: "JSGF".toList := by decide
  have hother : ∀ char ∈ ['g', 'i', 'p', '<'], char ≠ '#' := List.all_iff_forall_prop.mp (by decide)
  cases text with
  | nil => rfl
  | cons char more =>
      rw [hspelled]
      exact if_neg (hother char (hstarts char rfl))

theorem HasMark.skipMark_eq_ok {isInside : List Char → Prop} {text rest : List Char}
    (hmark : HasMark isInside text rest)
    (hrest : ∀ char ∈ (skipBlanks rest).head?, char ∈ ['g', 'i', 'p', '<']) :
    ∃ after, skipMark (skipBlanks text) = .ok after ∧ skipBlanks after = skipBlanks rest := by
  cases hmark with
  | absent =>
      exact ⟨skipBlanks text, skipMark_eq_ok_iff.mpr (.inl ⟨dropStart?_mark_eq_none hrest, rfl⟩),
        skipBlanks_skipBlanks text⟩
  | @present gap inside hgap _ hsemicolon =>
      refine ⟨rest, ?_, rfl⟩
      rw [hgap.skipBlanks_append, skipBlanks_mark]
      exact skipMark_eq_ok_iff.mpr (.inr ⟨inside, hsemicolon, rfl⟩)

end Whole

/-- The documents that are read without errors are the grammar texts, whatever is in the mark. -/
theorem exists_document_iff {text : List Char} {header : Header}
    {rules : List (Head × Expansion P)} :
    (∃ list, document text = .ok ⟨header, list⟩ ∧ List.Forall₂ Statement.Reads list rules) ↔
      IsGrammarText (fun _ => True) header rules text := by
  constructor
  · rintro ⟨list, hread, hreads⟩
    obtain ⟨⟨found, rest⟩, hheader, hread⟩ := bind_eq_ok_iff.mp hread
    obtain ⟨rfl, rfl⟩ := Document.mk.inj (Except.ok.inj hread)
    obtain ⟨unmarked, hmark, hheader⟩ := bind_eq_ok_iff.mp hheader
    obtain ⟨⟨name?, unnamed⟩, hname, hheader⟩ := bind_eq_ok_iff.mp hheader
    obtain ⟨⟨imports, left⟩, himports, hheader⟩ := bind_eq_ok_iff.mp hheader
    obtain ⟨rfl, rfl⟩ := Prod.mk.inj (Except.ok.inj hheader)
    obtain ⟨afterMark, hmark, hunmarked⟩ := hasMark_of_skipMark hmark
    rw [← hunmarked] at hname
    obtain ⟨afterName, hname, hunnamed⟩ := hasName_of_nameDeclaration hname
    obtain ⟨afterImports, himports, hleft⟩ := hasImports_of_importDeclarations himports hunnamed
    rw [statements_congr hleft.symm] at hreads
    refine ⟨afterMark, afterName, afterImports, hmark, hname, himports, ?_⟩
    refine hasRules_of_statements (Nat.lt_succ_of_le ?_) hreads
    rw [hleft]
    exact length_skipBlanks_le left
  · rintro ⟨unmarked, unnamed, rest, hmark, hname, himports, hrules⟩
    have hstarts := hrules.startsRule
    have hline := himports.startsLine hstarts
    obtain ⟨hdeclares, afterName, hname, hunnamed⟩ := hname.exists_nameDeclaration hline
    obtain ⟨afterMark, hmark, hunmarked⟩ := hmark.skipMark_eq_ok hdeclares
    rw [← hunmarked] at hname
    have himports := himports.importDeclarations_eq_ok hstarts hunnamed
      (Nat.lt_succ_of_le (hunnamed ▸ length_skipBlanks_le afterName))
    have hheader : Source.header text = .ok (header, skipBlanks rest) :=
      bind_eq_ok_iff.mpr ⟨_, hmark, bind_eq_ok_iff.mpr ⟨_, hname,
        bind_eq_ok_iff.mpr ⟨_, himports, rfl⟩⟩⟩
    refine ⟨_, bind_eq_ok_iff.mpr ⟨_, hheader, rfl⟩, ?_⟩
    rw [statements_congr (skipBlanks_skipBlanks rest)]
    exact hrules.forall₂_statements (Nat.lt_succ_self _)

end SpeechGrammar.Source
