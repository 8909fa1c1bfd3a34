import SpeechGrammar.Proofs.Expansion.Everywhere
import SpeechGrammar.Source.Document

/-!
# What is read from a text

Not every expansion is read from a text.  Words are not blank, sequences and
alternations do not stand for their only part, stacked tags are joined, and
marks only repeat without end.  Everything that is read is of this kind, and
no rule has a reserved name.
-/

namespace SpeechGrammar.Source

variable {P : Type}

/-- A reading succeeds if both its parts do, the second behind the first. -/
theorem bind_eq_ok_iff {α β : Type} {first : Except Failure α} {next : α → Except Failure β}
    {value : β} :
    (first >>= next) = .ok value ↔ ∃ before, first = .ok before ∧ next before = .ok value := by
  cases first with
  | error failure =>
      constructor
      · exact fun hread => nomatch hread
      · exact fun ⟨_, hread, _⟩ => nomatch hread
  | ok before =>
      constructor
      · exact fun hread => ⟨before, rfl, hread⟩
      · rintro ⟨_, ⟨⟩, hread⟩
        exact hread

theorem bind_of_eq_ok {α β : Type} {first : Except Failure α} {next : α → Except Failure β}
    {before : α} (hfirst : first = .ok before) : (first >>= next) = next before := by
  rw [hfirst]
  rfl

/-- Whatever a reader takes off a text is good. -/
def Yields {α : Type} (good : α → Prop) (result : Except Failure (Taken α)) : Prop :=
  ∀ value rest, result = .ok (value, rest) → good value

section Yields

variable {α β : Type} {good : α → Prop} {better : β → Prop}

theorem Yields.failAt (text : List Char) (reason : Reason) :
    Yields good (Source.failAt text reason) := by
  intro value rest hread
  cases hread

theorem Yields.ok {value : α} (hgood : good value) (rest : List Char) :
    Yields good (.ok (value, rest)) := by
  intro other _ hread
  obtain ⟨rfl, -⟩ := Prod.mk.inj (Except.ok.inj hread)
  exact hgood

/-- What is read first may be relied on in what is read behind it. -/
theorem Yields.bind {result : Except Failure (Taken α)}
    {next : Taken α → Except Failure (Taken β)} (hfirst : Yields good result)
    (hnext : ∀ value rest, good value → Yields better (next (value, rest))) :
    Yields better (result >>= next) := by
  cases result with
  | error failure => exact fun value rest hread => nomatch hread
  | ok taken => exact hnext taken.1 taken.2 (hfirst taken.1 taken.2 rfl)

theorem Yields.bind_rest {result : Except Failure (List Char)}
    {next : List Char → Except Failure (Taken β)}
    (hnext : ∀ rest, Yields better (next rest)) : Yields better (result >>= next) := by
  cases result with
  | error failure => exact fun value rest hread => nomatch hread
  | ok rest => exact hnext rest

end Yields

/-- The names that can stand between angle brackets. -/
def IsName (name : List Char) : Prop :=
  name ≠ [] ∧ ∀ char ∈ name, isRuleNameCharacter char = true

/-- Tags that are read between braces. -/
def IsWrittenTag (tag : Tag) : Prop :=
  ∃ inside, Text.allBlank inside = false ∧ tag = Tag.ofText (String.ofList inside)

theorem yields_run (holds : Char → Bool) (reason : Option Char → Reason) (text : List Char) :
    Yields (fun taken => taken ≠ [] ∧ ∀ char ∈ taken, holds char = true)
      (run holds reason text) := by
  unfold run
  split
  · exact Yields.failAt _ _
  · rename_i hsome
    refine Yields.ok ⟨fun hnil => hsome hnil, fun char hchar => ?_⟩ _
    exact List.all_eq_true.mp List.all_takeWhile char hchar

theorem yields_bracketedName (text : List Char) : Yields IsName (bracketedName text) := by
  unfold bracketedName
  refine Yields.bind_rest fun rest => ?_
  refine (yields_run _ _ rest).bind fun name rest hname => ?_
  refine Yields.bind_rest fun rest => Yields.ok ?_ rest
  exact hname

theorem yields_bareWord (text : List Char) :
    Yields (fun word => Text.allBlank word = false) (bareWord text) := by
  intro word rest hread
  obtain ⟨hnil, hbare⟩ := yields_run _ _ text word rest hread
  obtain ⟨char, more, rfl⟩ := List.exists_cons_of_ne_nil hnil
  have hchar := hbare char (List.mem_cons_self ..)
  have hsolid : Text.isBlank char = false := by
    simp only [isBareCharacter, Bool.not_eq_true', Bool.or_eq_false_iff] at hchar
    exact hchar.2
  simp [Text.allBlank, hsolid]

theorem yields_quoted (text afterQuote : List Char) :
    Yields (fun word => Text.allBlank word = false) (quoted text afterQuote) := by
  unfold quoted
  split
  · exact Yields.failAt _ _
  · split
    · exact Yields.failAt _ _
    · rename_i hblank
      refine Yields.ok ?_ _
      exact Bool.eq_false_iff.mpr hblank

theorem yields_tag (text afterBrace : List Char) : Yields IsWrittenTag (tag text afterBrace) := by
  unfold tag
  split
  · exact Yields.failAt _ _
  · split
    · exact Yields.failAt _ _
    · rename_i hblank
      exact Yields.ok ⟨_, Bool.eq_false_iff.mpr hblank, rfl⟩ _

/-! ## Expansions -/

variable [BranchWeight P]

/-- Weights that numerals between slashes stand for. -/
def IsWrittenWeight (weight : P) : Prop :=
  ∃ digits exponent, weight = BranchWeight.ofDecimal digits exponent

theorem yields_weight? (text : List Char) :
    Yields (fun weight? : Option P => ∀ weight ∈ weight?, IsWrittenWeight weight)
      (weight? text) := by
  unfold weight?
  split
  · split
    · rename_i hweight
      refine Yields.ok (fun weight hmem => ?_) _
      obtain rfl := Option.some.inj hmem
      rw [weightAfterSlash?] at hweight
      split at hweight
      · cases hweight
      · split at hweight
        · obtain ⟨rfl, -⟩ := Prod.mk.inj (Option.some.inj hweight)
          exact ⟨_, _, rfl⟩
        · cases hweight
    · exact Yields.failAt _ _
  · exact Yields.ok (fun _ hmem => nomatch hmem) _

/-- How an expansion that is read is made from its parts. -/
def IsWritten : Expansion P → Prop
  | .literal text => Text.allBlank text.toList = false
  | .reference link =>
      link.target? = none ∧ IsName link.name.toList ∧ link.name ≠ "NULL" ∧ link.name ≠ "VOID"
  | .sequence items => items.length ≠ 1
  | .alternation branches =>
      (∀ probability body, branches ≠ [⟨none, probability, body⟩]) ∧
        ∀ branch ∈ branches, branch.probability = 1 ∧
          ∀ weight ∈ branch.weight?, IsWrittenWeight weight
  | .repetition _ least most? => least ≤ 1 ∧ most? = none
  | .optional _ => True
  | .tagged body tags =>
      (∀ inner more, body ≠ .tagged inner more) ∧ tags ≠ [] ∧ ∀ tag ∈ tags, IsWrittenTag tag

/-- Expansions that are read from a text. -/
abbrev Written (expansion : Expansion P) : Prop := expansion.Everywhere IsWritten

/-- Branches that are read from a text. -/
structure WrittenBranch (branch : Branch P (Expansion P)) : Prop where
  probability_eq : branch.probability = 1
  weight : ∀ weight ∈ branch.weight?, IsWrittenWeight weight
  body : Written branch.body

theorem written_joinBranches {list : List (Branch P (Expansion P))}
    (hlist : ∀ branch ∈ list, WrittenBranch branch) : Written (joinBranches list) := by
  unfold joinBranches
  split
  · exact (hlist _ (List.mem_singleton_self _)).body
  · rename_i hmany
    exact .alternation ⟨hmany, fun branch hbranch =>
      ⟨(hlist branch hbranch).probability_eq, (hlist branch hbranch).weight⟩⟩
      fun branch hbranch => (hlist branch hbranch).body

theorem written_joinUnits {list : List (Expansion P)} (hlist : ∀ item ∈ list, Written item) :
    Written (joinUnits list) := by
  unfold joinUnits
  split
  · exact hlist _ (List.mem_singleton_self _)
  · rename_i hmany
    refine .sequence (fun hone => ?_) hlist
    obtain ⟨item, rfl⟩ := List.length_eq_one_iff.mp hone
    exact hmany item rfl

theorem written_attach {unit : Expansion P} (hunit : Written unit) {tag : Tag}
    (htag : IsWrittenTag tag) : Written (attach unit tag) := by
  unfold attach
  split
  · cases hunit with
    | tagged hgood hbody =>
        obtain ⟨hinner, -, htags⟩ := hgood
        refine .tagged ⟨hinner, by simp, fun other hother => ?_⟩ hbody
        rcases List.mem_append.mp hother with hother | hother
        · exact htags other hother
        · rwa [List.mem_singleton.mp hother]
  · rename_i hplain
    refine .tagged ⟨hplain, by simp, fun other hother => ?_⟩ hunit
    rwa [List.mem_singleton.mp hother]

theorem written_null : Written (Expansion.null : Expansion P) :=
  .sequence (by simp [IsWritten]) fun _ hitem => nomatch hitem

theorem written_void : Written (Expansion.void : Expansion P) :=
  .alternation ⟨by simp, fun _ hbranch => nomatch hbranch⟩ fun _ hbranch => nomatch hbranch

theorem written_named {name : List Char} (hname : IsName name) :
    Written (named name : Expansion P) := by
  unfold named
  split
  · exact written_null
  · rename_i hnull
    split
    · exact written_void
    · rename_i hvoid
      have hspelled : ∀ other : String, String.ofList name = other → name = other.toList := by
        rintro _ rfl
        rw [String.toList_ofList]
      exact .reference ⟨rfl, by rwa [String.toList_ofList],
        fun heq => hnull (hspelled _ heq), fun heq => hvoid (hspelled _ heq)⟩

mutual

theorem yields_branches (allowance : Nat) (text : List Char) :
    Yields (fun list => ∀ branch ∈ list, WrittenBranch branch)
      (branches allowance text : Except Failure (Taken (List (Branch P (Expansion P))))) := by
  match allowance with
  | 0 => exact Yields.failAt _ _
  | allowance + 1 =>
      rw [branches]
      refine (yields_weight? _).bind fun weight? text hweight => ?_
      refine (yields_sequence allowance text).bind fun body text hbody => ?_
      have hfirst : WrittenBranch (⟨weight?, 1, body⟩ : Branch P (Expansion P)) :=
        ⟨rfl, hweight, hbody⟩
      dsimp only
      split
      · exact (yields_branches allowance _).bind fun others text hothers =>
          Yields.ok (List.forall_mem_cons.mpr ⟨hfirst, hothers⟩) text
      · exact Yields.ok (List.forall_mem_singleton.mpr hfirst) _

theorem yields_alternation (allowance : Nat) (text : List Char) :
    Yields Written (alternation allowance text : Except Failure (Taken (Expansion P))) := by
  match allowance with
  | 0 => exact Yields.failAt _ _
  | allowance + 1 =>
      rw [alternation]
      exact (yields_branches allowance text).bind fun list text hlist =>
        Yields.ok (written_joinBranches hlist) text

theorem yields_sequence (allowance : Nat) (text : List Char) :
    Yields Written (sequence allowance text : Except Failure (Taken (Expansion P))) := by
  match allowance with
  | 0 => exact Yields.failAt _ _
  | allowance + 1 =>
      rw [sequence]
      refine (yields_units allowance text).bind fun list text hlist => ?_
      split
      · exact Yields.failAt _ _
      · rename_i heq
        obtain ⟨rfl, rfl⟩ := Prod.mk.inj heq
        exact Yields.ok (written_joinUnits hlist) _

theorem yields_units (allowance : Nat) (text : List Char) :
    Yields (fun list => ∀ item ∈ list, Written item)
      (units allowance text : Except Failure (Taken (List (Expansion P)))) := by
  match allowance with
  | 0 => exact Yields.failAt _ _
  | allowance + 1 =>
      rw [units]
      dsimp only
      split
      · exact Yields.ok (fun _ hitem => nomatch hitem) _
      · refine (yields_unit allowance _).bind fun first text hfirst => ?_
        exact (yields_units allowance text).bind fun others text hothers =>
          Yields.ok (List.forall_mem_cons.mpr ⟨hfirst, hothers⟩) text

theorem yields_unit (allowance : Nat) (text : List Char) :
    Yields Written (unit allowance text : Except Failure (Taken (Expansion P))) := by
  match allowance with
  | 0 => exact Yields.failAt _ _
  | allowance + 1 =>
      rw [unit]
      exact (yields_atom allowance text).bind fun atom text hatom =>
        yields_marks allowance text hatom

theorem yields_marks (allowance : Nat) {unit : Expansion P} (text : List Char)
    (hunit : Written unit) : Yields Written (marks allowance unit text) := by
  match allowance with
  | 0 => exact Yields.failAt _ _
  | allowance + 1 =>
      rw [marks]
      split
      · exact yields_marks allowance _ (.repetition ⟨Nat.zero_le _, rfl⟩ hunit)
      · exact yields_marks allowance _ (.repetition ⟨Nat.le_refl _, rfl⟩ hunit)
      · exact yields_marks allowance _ (.optional trivial hunit)
      · exact (yields_tag _ _).bind fun tag rest htag =>
          yields_marks allowance rest (written_attach hunit htag)
      · exact Yields.ok hunit text

theorem yields_atom (allowance : Nat) (text : List Char) :
    Yields Written (atom allowance text : Except Failure (Taken (Expansion P))) := by
  match allowance with
  | 0 => exact Yields.failAt _ _
  | allowance + 1 =>
      have hliteral : ∀ word : List Char, Text.allBlank word = false →
          Written (.literal (String.ofList word) : Expansion P) :=
        fun word hword => .literal (by rwa [IsWritten, String.toList_ofList])
      unfold atom
      split
      · refine (yields_alternation allowance _).bind fun body rest hbody => ?_
        dsimp only
        split
        · exact Yields.ok hbody _
        · exact Yields.failAt _ _
      · refine (yields_alternation allowance _).bind fun body rest hbody => ?_
        dsimp only
        split
        · exact Yields.ok (.optional trivial hbody) _
        · exact Yields.failAt _ _
      · exact (yields_bracketedName _).bind fun name rest hname =>
          Yields.ok (written_named hname) rest
      · exact (yields_quoted _ _).bind fun word rest hword => Yields.ok (hliteral word hword) rest
      · exact Yields.failAt _ _
      · exact Yields.failAt _ _
      · exact Yields.failAt _ _
      · exact (yields_bareWord _).bind fun word rest hword => Yields.ok (hliteral word hword) rest

end

/-- The body of a rule is of the kind that is read, wherever it is read. -/
theorem yields_body (text : List Char) :
    Yields Written (body text : Except Failure (Taken (Expansion P))) := by
  rw [body]
  refine (yields_alternation _ text).bind fun expansion text hexpansion => ?_
  dsimp only
  split
  · exact Yields.ok hexpansion _
  · exact Yields.failAt _ _
  · exact Yields.failAt _ _
  · exact Yields.failAt _ _

/-! ## Statements -/

def Head.IsWritten (head : Head) : Prop :=
  IsName head.name.toList ∧ head.name ≠ "NULL" ∧ head.name ≠ "VOID"

theorem yields_head (text : List Char) : Yields Head.IsWritten (head text) := by
  unfold head
  refine (yields_bracketedName _).bind fun name rest hname => ?_
  dsimp only
  split
  · exact Yields.failAt _ _
  · rename_i hfree
    obtain ⟨hnull, hvoid⟩ := not_or.mp hfree
    exact Yields.bind_rest fun rest => Yields.ok ⟨by rwa [String.toList_ofList], hnull, hvoid⟩ rest

/-- Statements that are read from a text. -/
def Statement.IsWritten : Statement P → Prop
  | .definition _ head (.ok expansion) => head.IsWritten ∧ Written expansion
  | .definition _ head (.error _) => head.IsWritten
  | .malformed _ => True

theorem isWritten_of_mem_statements {allowance : Nat} {text : List Char}
    {statement : Statement P} (hmem : statement ∈ statements allowance text) :
    statement.IsWritten := by
  induction allowance generalizing text with
  | zero => cases hmem
  | succ allowance ih =>
      rw [statements] at hmem
      split at hmem
      · cases hmem
      · split at hmem
        · rcases List.mem_cons.mp hmem with rfl | hmem
          · trivial
          · exact ih hmem
        · rename_i found rest hhead
          have hfound := yields_head _ found rest hhead
          split at hmem
          · rename_i expansion after hbody
            rcases List.mem_cons.mp hmem with rfl | hmem
            · exact ⟨hfound, yields_body _ _ _ hbody⟩
            · exact ih hmem
          · rcases List.mem_cons.mp hmem with rfl | hmem
            · exact hfound
            · exact ih hmem

end SpeechGrammar.Source
