import SpeechGrammar.Proofs.Source.Lexeme

/-!
# The grammar of rule bodies

Lexemes make up phrases: atoms, units, sequences, branches and alternations.
Each kind of phrase is given with the expansion it stands for.  A phrase of one
part without anything of its own is that part.
-/

namespace SpeechGrammar.Source

variable {P : Type}

/-- What a mark makes of the unit in front of it.  A tag joins the tags of a unit that has some. -/
inductive Marks : Lexeme P → Expansion P → Expansion P → Prop where
  | star {unit : Expansion P} : Marks (.sign '*') unit unit.star
  | plus {unit : Expansion P} : Marks (.sign '+') unit unit.plus
  | optional {unit : Expansion P} : Marks (.sign '?') unit (.optional unit)
  | first {tag : Tag} {unit : Expansion P} (hplain : ∀ body tags, unit ≠ .tagged body tags) :
      Marks (.tag tag) unit (.tagged unit [tag])
  | another {tag : Tag} {body : Expansion P} {tags : List Tag} :
      Marks (.tag tag) (.tagged body tags) (.tagged body (tags ++ [tag]))

/-- Marks behind a unit are applied from left to right: the marks, the unit, and what they make. -/
inductive IsMarked : List (Lexeme P) → Expansion P → Expansion P → Prop where
  | nil {unit : Expansion P} : IsMarked [] unit unit
  | cons {mark : Lexeme P} {marks : List (Lexeme P)} {unit marked whole : Expansion P}
      (hmark : Marks mark unit marked) (hmarks : IsMarked marks marked whole) :
      IsMarked (mark :: marks) unit whole

variable [BranchWeight P]

mutual

/-- Alternations.  One branch without weight is what the branch expands to. -/
inductive IsAlternation : List (Lexeme P) → Expansion P → Prop where
  | only {lexemes : List (Lexeme P)} {body : Expansion P}
      (hbranches : IsBranches lexemes [⟨none, 1, body⟩]) : IsAlternation lexemes body
  | many {lexemes : List (Lexeme P)} {branches : List (Branch P (Expansion P))}
      (hbranches : IsBranches lexemes branches) (hmany : ∀ body, branches ≠ [⟨none, 1, body⟩]) :
      IsAlternation lexemes (.alternation branches)

inductive IsBranches : List (Lexeme P) → List (Branch P (Expansion P)) → Prop where
  | one {lexemes : List (Lexeme P)} {branch : Branch P (Expansion P)}
      (hbranch : IsBranch lexemes branch) : IsBranches lexemes [branch]
  | cons {lexemes others : List (Lexeme P)} {branch : Branch P (Expansion P)}
      {branches : List (Branch P (Expansion P))} (hbranch : IsBranch lexemes branch)
      (hothers : IsBranches others branches) :
      IsBranches (lexemes ++ .sign '|' :: others) (branch :: branches)

inductive IsBranch : List (Lexeme P) → Branch P (Expansion P) → Prop where
  | plain {lexemes : List (Lexeme P)} {body : Expansion P} (hbody : IsSequence lexemes body) :
      IsBranch lexemes ⟨none, 1, body⟩
  | weighted {weight : P} {lexemes : List (Lexeme P)} {body : Expansion P}
      (hbody : IsSequence lexemes body) :
      IsBranch (.weight weight :: lexemes) ⟨some weight, 1, body⟩

/-- Sequences of one unit or more.  One unit is that unit. -/
inductive IsSequence : List (Lexeme P) → Expansion P → Prop where
  | only {lexemes : List (Lexeme P)} {unit : Expansion P} (hunits : IsUnits lexemes [unit]) :
      IsSequence lexemes unit
  | many {lexemes : List (Lexeme P)} {units : List (Expansion P)} (hunits : IsUnits lexemes units)
      (hmany : 1 < units.length) : IsSequence lexemes (.sequence units)

inductive IsUnits : List (Lexeme P) → List (Expansion P) → Prop where
  | nil : IsUnits [] []
  | cons {lexemes others : List (Lexeme P)} {unit : Expansion P} {units : List (Expansion P)}
      (hunit : IsUnit lexemes unit) (hothers : IsUnits others units) :
      IsUnits (lexemes ++ others) (unit :: units)

inductive IsUnit : List (Lexeme P) → Expansion P → Prop where
  | marked {lexemes marks : List (Lexeme P)} {atom unit : Expansion P}
      (hatom : IsAtom lexemes atom) (hmarks : IsMarked marks atom unit) :
      IsUnit (lexemes ++ marks) unit

/-- Atoms: words, names and groups.  Two names are reserved for what needs no rule. -/
inductive IsAtom : List (Lexeme P) → Expansion P → Prop where
  | word {word : List Char} : IsAtom [.word word] (.literal (String.ofList word))
  | null : IsAtom [.name "NULL".toList] .null
  | void : IsAtom [.name "VOID".toList] .void
  | reference {name : List Char} (hnull : name ≠ "NULL".toList)
      (hvoid : name ≠ "VOID".toList) :
      IsAtom [.name name] (.reference ⟨String.ofList name, none⟩)
  | group {lexemes : List (Lexeme P)} {body : Expansion P} (hbody : IsAlternation lexemes body) :
      IsAtom (.sign '(' :: (lexemes ++ [.sign ')'])) body
  | optional {lexemes : List (Lexeme P)} {body : Expansion P}
      (hbody : IsAlternation lexemes body) :
      IsAtom (.sign '[' :: (lexemes ++ [.sign ']'])) (.optional body)

end

/-- The expansions a text stands for: what the alternations it spells stand for. -/
def Derives (text : List Char) (expansion : Expansion P) : Prop :=
  ∃ lexemes, Spelled lexemes text ∧ IsAlternation lexemes expansion

omit [BranchWeight P] in
theorem marks_tag_iff {tag : Tag} {unit marked : Expansion P} :
    Marks (.tag tag) unit marked ↔ attach unit tag = marked := by
  constructor
  · intro hmark
    cases hmark with
    | first hplain =>
        rw [attach]
        exact hplain
    | another => rfl
  · rintro rfl
    unfold attach
    split
    · exact .another
    · rename_i hplain
      exact .first hplain

theorem IsBranches.probability_eq {lexemes : List (Lexeme P)} {given? : Option P}
    {probability : P} {body : Expansion P}
    (hbranches : IsBranches lexemes [⟨given?, probability, body⟩]) : probability = 1 := by
  cases hbranches with
  | one hbranch => cases hbranch <;> rfl
  | cons _ hothers => cases hothers

theorem isAlternation_iff {lexemes : List (Lexeme P)} {expansion : Expansion P} :
    IsAlternation lexemes expansion ↔
      ∃ list, IsBranches lexemes list ∧ joinBranches list = expansion := by
  constructor
  · intro halternation
    cases halternation with
    | only hbranches => exact ⟨_, hbranches, rfl⟩
    | @many _ list hbranches hmany =>
        refine ⟨list, hbranches, ?_⟩
        unfold joinBranches
        split
        · obtain rfl := hbranches.probability_eq
          exact absurd rfl (hmany _)
        · rfl
  · rintro ⟨list, hbranches, rfl⟩
    unfold joinBranches
    split
    · obtain rfl := hbranches.probability_eq
      exact .only hbranches
    · rename_i hmany
      exact .many hbranches (hmany 1)

theorem isSequence_iff {lexemes : List (Lexeme P)} {expansion : Expansion P} :
    IsSequence lexemes expansion ↔
      ∃ list, IsUnits lexemes list ∧ list ≠ [] ∧ joinUnits list = expansion := by
  constructor
  · intro hsequence
    cases hsequence with
    | only hunits => exact ⟨_, hunits, List.cons_ne_nil _ _, rfl⟩
    | @many _ list hunits hmany =>
        refine ⟨list, hunits, List.ne_nil_of_length_pos (Nat.zero_lt_of_lt hmany), ?_⟩
        unfold joinUnits
        split
        · cases Nat.lt_irrefl 1 hmany
        · rfl
  · rintro ⟨list, hunits, hne, rfl⟩
    unfold joinUnits
    split
    · exact .only hunits
    · rename_i hmany
      refine .many hunits ?_
      match list with
      | [] => contradiction
      | [unit] => exact absurd rfl (hmany unit)
      | first :: second :: others => exact Nat.le_add_left 2 others.length

theorem isAtom_name_iff {name : List Char} {expansion : Expansion P} :
    IsAtom [.name name] expansion ↔ named name = expansion := by
  constructor
  · intro hatom
    cases hatom with
    | null => rfl
    | void => rfl
    | reference hnull hvoid => rw [named, if_neg hnull, if_neg hvoid]
  · rintro rfl
    unfold named
    split
    · rename_i hnull
      rw [hnull]
      exact .null
    · rename_i hnull
      split
      · rename_i hvoid
        rw [hvoid]
        exact .void
      · rename_i hvoid
        exact .reference hnull hvoid

end SpeechGrammar.Source
