import SpeechGrammar.Proofs.Grammar.Integrity
import SpeechGrammar.Proofs.Printing.Token
import SpeechGrammar.Proofs.SingleWeight

/-!
# The normal form of what is read

Printing, matching and building rely on how expansions look after reading.
Nothing is wrapped without need: there are no sequences of one item, no
alternations of one branch without a weight, and no tags around tags.  Words
are visible, references have names that are not reserved, repetitions have no
upper bound, and weights are numbers that are not negative.  All of this holds
in every part of every rule, whatever the text, and whether it is read
strictly or leniently.
-/

namespace SpeechGrammar

def Text.IsTrimmed (text : List Char) : Prop :=
  (∀ char ∈ text.head?, isBlank char = false) ∧ ∀ char ∈ text.getLast?, isBlank char = false

theorem Text.isBlank_of_mem_head?_dropWhile {text : List Char} {char : Char}
    (hchar : char ∈ (text.dropWhile isBlank).head?) : isBlank char = false := by
  have hfirst := List.head?_dropWhile_not isBlank text
  rw [Option.mem_def.mp hchar] at hfirst
  exact hfirst

theorem Text.isTrimmed_trim (text : List Char) : IsTrimmed (trim text) := by
  rw [trim, trimEnd_eq_rdropWhile]
  constructor
  · intro char hchar
    obtain ⟨dropped, heq⟩ := List.rdropWhile_prefix isBlank (trimStart text)
    apply isBlank_of_mem_head?_dropWhile
    change char ∈ (trimStart text).head?
    rw [← heq, List.head?_append, Option.mem_def.mp hchar]
    rfl
  · intro char hchar
    rw [List.rdropWhile, List.getLast?_reverse] at hchar
    exact isBlank_of_mem_head?_dropWhile hchar

/-- Tags with a label that the first colon ends, and nothing blank around label and value. -/
structure Tag.IsNormal (tag : Tag) : Prop where
  colon : ':' ∉ tag.label.toList
  label : Text.IsTrimmed tag.label.toList
  value : ∀ value ∈ tag.value?, Text.IsTrimmed value.toList

/-- Every text between braces is read as a tag in normal form. -/
theorem Tag.isNormal_ofText (text : String) : (Tag.ofText text).IsNormal := by
  unfold Tag.ofText
  split
  · rename_i label value hcut
    obtain ⟨-, hlabel⟩ := Text.eq_append_of_cutFirst? hcut
    refine ⟨?_, ?_, fun other hother => ?_⟩
    · rw [String.toList_ofList]
      exact fun hmem => hlabel (Text.mem_of_mem_trim hmem)
    · rw [String.toList_ofList]
      exact Text.isTrimmed_trim label
    · obtain rfl := Option.some.inj hother
      rw [String.toList_ofList]
      exact Text.isTrimmed_trim value
  · rename_i hcut
    have htext : (Text.trimmed text).toList = Text.trim text.toList := String.toList_ofList
    refine ⟨?_, ?_, fun other hother => ?_⟩
    · rw [htext]
      exact fun hmem => Text.cutFirst?_eq_none_iff.mp hcut (Text.mem_of_mem_trim hmem)
    · rw [htext]
      exact Text.isTrimmed_trim text.toList
    · cases hother

/-- How an expansion that is read looks, as far as its own construction goes. -/
def Expansion.IsNormal : Expansion Float32 → Prop
  | .literal text => ∃ char ∈ text.toList, Text.isBlank char = false
  | .reference link => link.name ≠ "NULL" ∧ link.name ≠ "VOID"
  | .sequence items => items.length = 0 ∨ 2 ≤ items.length
  | .alternation branches =>
      (branches.length = 0 ∨ 2 ≤ branches.length ∨
        ∃ branch weight, branches = [branch] ∧ branch.weight? = some weight) ∧
      ∀ branch ∈ branches, ∀ weight ∈ branch.weight?, 0 ≤ weight ∧ weight.isNaN = false
  | .repetition _ least most? => (least = 0 ∨ least = 1) ∧ most? = none
  | .optional _ => True
  | .tagged body tags =>
      (∀ inner more, body ≠ .tagged inner more) ∧ tags ≠ [] ∧ ∀ tag ∈ tags, tag.IsNormal

theorem Source.IsWrittenWeight.zero_le {weight : Float32} (hweight : IsWrittenWeight weight) :
    0 ≤ weight ∧ weight.isNaN = false := by
  obtain ⟨digits, exponent, rfl⟩ := hweight
  have hle : 0 ≤ Binary32.ofDecimal digits exponent := Binary32.zero_le_ofDecimal digits exponent
  exact ⟨hle, Binary32.isNaN_eq_false_of_le hle⟩

namespace Expansion

/-- A list that is not a single branch without a weight has none, has a weight, or has several. -/
theorem length_of_forall_ne {branches : List (Branch Float32 (Expansion Float32))}
    (hbranches : ∀ probability body, branches ≠ [⟨none, probability, body⟩]) :
    branches.length = 0 ∨ 2 ≤ branches.length ∨
      ∃ branch weight, branches = [branch] ∧ branch.weight? = some weight := by
  match branches with
  | [] => exact .inl rfl
  | [⟨none, probability, body⟩] => exact absurd rfl (hbranches probability body)
  | [⟨some weight, _, _⟩] => exact .inr (.inr ⟨_, weight, rfl, rfl⟩)
  | _ :: _ :: others => exact .inr (.inl (Nat.le_add_left 2 others.length))

/-- What is read is in normal form. -/
theorem isNormal_of_isWritten {part : Expansion Float32} (hpart : Source.IsWritten part) :
    part.IsNormal := by
  cases part with
  | literal text => exact Text.allBlank_eq_false_iff.mp hpart
  | reference link => exact hpart.2.2
  | sequence items =>
      change items.length ≠ 1 at hpart
      change items.length = 0 ∨ 2 ≤ items.length
      omega
  | alternation branches =>
      obtain ⟨hsingle, hbranches⟩ := hpart
      exact ⟨length_of_forall_ne hsingle, fun branch hbranch weight hweight =>
        ((hbranches branch hbranch).2 weight hweight).zero_le⟩
  | repetition body least most? => exact ⟨Nat.le_one_iff_eq_zero_or_eq_one.mp hpart.1, hpart.2⟩
  | optional body => trivial
  | tagged body tags =>
      obtain ⟨hinner, hsome, htags⟩ := hpart
      refine ⟨hinner, hsome, fun tag htag => ?_⟩
      obtain ⟨inside, -, rfl⟩ := htags tag htag
      exact Tag.isNormal_ofText _

/-- A change that goes through all parts puts no tags where there are none. -/
theorem IsPartwise.ne_tagged {change : Expansion Float32 → Expansion Float32}
    (hchange : IsPartwise change) {body : Expansion Float32}
    (hbody : ∀ inner tags, body ≠ .tagged inner tags) (inner : Expansion Float32)
    (tags : List Tag) : change body ≠ .tagged inner tags := by
  intro heq
  cases body with
  | literal text =>
      rw [hchange.literal] at heq
      cases heq
  | reference link =>
      obtain ⟨other, hother⟩ := hchange.reference link
      rw [hother] at heq
      cases heq
  | sequence items =>
      rw [hchange.sequence] at heq
      cases heq
  | alternation branches =>
      obtain ⟨share, hshare⟩ := hchange.alternation branches
      rw [hshare] at heq
      cases heq
  | repetition body least most? =>
      rw [hchange.repetition] at heq
      cases heq
  | optional body =>
      rw [hchange.optional] at heq
      cases heq
  | tagged inner tags => exact hbody inner tags rfl

/-- Changes that go through all parts change neither numbers of parts, nor weights, nor tags. -/
theorem isNormal_of_isPartwise {change : Expansion Float32 → Expansion Float32}
    (hchange : IsPartwise change)
    (hnames : ∀ link, ∃ other : Reference, change (.reference link) = .reference other ∧
      other.name = link.name)
    {part : Expansion Float32} (hpart : part.IsNormal) : (change part).IsNormal := by
  cases part with
  | literal text =>
      rw [hchange.literal]
      exact hpart
  | reference link =>
      obtain ⟨other, heq, hname⟩ := hnames link
      rw [heq, IsNormal, hname]
      exact hpart
  | sequence items =>
      rw [hchange.sequence, IsNormal, List.length_map]
      exact hpart
  | alternation branches =>
      obtain ⟨share, heq⟩ := hchange.alternation branches
      obtain ⟨hlength, hbranches⟩ := hpart
      rw [heq, IsNormal, List.length_map]
      refine ⟨?_, List.forall_mem_map.mpr fun branch hbranch => hbranches branch hbranch⟩
      obtain hnone | hmany | ⟨branch, weight, rfl, hweight⟩ := hlength
      · exact .inl hnone
      · exact .inr (.inl hmany)
      · exact .inr (.inr ⟨_, weight, rfl, hweight⟩)
  | repetition body least most? =>
      rw [hchange.repetition]
      exact hpart
  | optional body =>
      rw [hchange.optional]
      exact hpart
  | tagged body tags =>
      obtain ⟨hinner, htags⟩ := hpart
      rw [hchange.tagged]
      exact ⟨hchange.ne_tagged hinner, htags⟩

theorem IsNormal.mapReferences {part : Expansion Float32} (hpart : part.IsNormal)
    {change : Reference → Reference} (hchange : ∀ link, (change link).name = link.name) :
    (part.mapReferences change).IsNormal :=
  isNormal_of_isPartwise (isPartwise_mapReferences change)
    (fun link => ⟨change link, rfl, hchange link⟩) hpart

theorem IsNormal.withProbabilities {part : Expansion Float32} (hpart : part.IsNormal)
    (share : List (Option Float32) → Option Float32 → Float32) :
    (part.withProbabilities share).IsNormal :=
  isNormal_of_isPartwise (isPartwise_withProbabilities share) (fun link => ⟨link, rfl, rfl⟩) hpart

end Expansion

namespace Scope

/--
Every rule that is read from a text is in normal form in all its parts, whether the text is read
leniently or strictly, and whatever grammars the rules may refer to.
-/
theorem everywhere_isNormal_of_read {id : GrammarId} {text : String}
    {parent? : Option (Scope Float32)} {scope : Scope Float32}
    (hread : scope = (parseLenient id text parent?).1 ∨ parse id text parent? = .ok scope)
    {rule : Rule Float32} (hrule : rule ∈ scope.grammar.rules) :
    rule.body.Everywhere Expansion.IsNormal := by
  have hscope : scope = (parseLenient id text parent?).1 :=
    hread.elim (fun heq => heq) fun hparse => (congrArg Prod.fst (parse_eq_ok_iff.mp hparse)).symm
  subst hscope
  have hempty : (child id parent?).grammar.Bodies Source.Written := fun rule hrule => nomatch hrule
  obtain ⟨bound, hbound, rfl⟩ := List.mem_map.mp hrule
  obtain ⟨old, hold, -, hbody, -⟩ := exists_of_mem_resolve hbound
  have hwritten : Source.Written old.body := Draft.written_ofText hempty text.toList old hold
  -- Binding comes first, then the probabilities; either goes through all parts.
  have hresolved : bound.body.Everywhere Expansion.IsNormal := by
    rw [hbody]
    apply hwritten.partwise (Expansion.isPartwise_mapReferences _)
    intro part hpart
    exact (Expansion.isNormal_of_isWritten hpart).mapReferences fun _ => rfl
  apply hresolved.partwise (Expansion.isPartwise_withProbabilities _)
  intro part hpart
  exact hpart.withProbabilities shareOf

def orderText : String :=
  "grammar order; public <order> = ((/2/ <drink> | /0.5/ \"iced tea\")\x7bdrink: hot\x7d)" ++
    "\x7bhot\x7d+ please? | <NULL>; <drink> = (((tea)))* | (/1e99/ coffee);"

def order : Scope Float32 := (parseLenient ⟨0⟩ orderText none).1

/-- Reading `orderText` gives two rules whose bodies are in normal form everywhere. -/
theorem order_isNormal : parse ⟨0⟩ orderText none = .ok order ∧
    order.grammar.ruleNames = ["order", "drink"] ∧
      ∀ rule ∈ order.grammar.rules, rule.body.Everywhere Expansion.IsNormal := by
  have hread : (parseLenient (P := Float32) ⟨0⟩ orderText none).2 = [] ∧
      order.grammar.ruleNames = ["order", "drink"] := by
    decide +kernel
  obtain ⟨herrors, hnames⟩ := hread
  have hparse : parse ⟨0⟩ orderText none = .ok order := parse_eq_ok_iff.mpr (Prod.ext rfl herrors)
  exact ⟨hparse, hnames, fun rule hrule => everywhere_isNormal_of_read (.inr hparse) hrule⟩

end Scope

end SpeechGrammar
