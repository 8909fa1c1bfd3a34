import SpeechGrammar.Grammar.Basic
import SpeechGrammar.Proofs.Expansion.Everywhere

/-!
# What printed texts are made of

An expansion is printed construct by construct, and a grammar line by line.
Neither the rules that its
references are bound to nor the probabilities of its branches are printed, so
binding references and computing probabilities leave the text alone.
-/

namespace SpeechGrammar

variable {P : Type} [BranchWeight P]

namespace Expansion

theorem print_literal (text : String) : (literal text : Expansion P).print = printLiteral text :=
  rfl

theorem print_sequence_cons (first : Expansion P) (items : List (Expansion P)) :
    (sequence (first :: items)).print = '(' :: (first.print ++ printItems items ++ [')']) :=
  rfl

theorem print_alternation_cons (first : Branch P (Expansion P))
    (others : List (Branch P (Expansion P))) :
    (alternation (first :: others)).print =
      '(' :: (printWeight first.weight? ++ first.body.print ++ printBranches others ++ [')']) :=
  rfl

theorem print_repetition (body : Expansion P) (least : Nat) (most? : Option Nat) :
    (repetition body least most?).print = body.print ++ printBounds least most? :=
  rfl

theorem print_optional (body : Expansion P) :
    (optional body).print = '[' :: (body.print ++ [']']) :=
  rfl

theorem print_tagged (body : Expansion P) (tags : List Tag) :
    (tagged body tags).print = body.print ++ printTags tags :=
  rfl

theorem printItems_nil : printItems ([] : List (Expansion P)) = [] :=
  rfl

theorem printItems_cons (item : Expansion P) (items : List (Expansion P)) :
    printItems (item :: items) = ' ' :: (item.print ++ printItems items) :=
  rfl

theorem printBranches_cons (branch : Branch P (Expansion P))
    (branches : List (Branch P (Expansion P))) :
    printBranches (branch :: branches) =
      ' ' :: '|' :: ' ' ::
        (printWeight branch.weight? ++ (branch.body.print ++ printBranches branches)) :=
  congrArg (fun text => ' ' :: '|' :: ' ' :: text) (List.append_assoc ..)

theorem print_sequence_map {change : Expansion P → Expansion P} {items : List (Expansion P)}
    (hitems : ∀ item ∈ items, (change item).print = item.print) :
    (sequence (items.map change)).print = (sequence items).print := by
  have hprint : ∀ {items : List (Expansion P)}, (∀ item ∈ items, (change item).print = item.print) →
      printItems (items.map change) = printItems items := by
    intro items
    induction items with
    | nil => exact fun _ => rfl
    | cons item items ih =>
        intro hitems
        obtain ⟨hitem, hothers⟩ := List.forall_mem_cons.mp hitems
        rw [List.map_cons, printItems_cons, printItems_cons, hitem, ih hothers]
  cases items with
  | nil => rfl
  | cons first items =>
      obtain ⟨hfirst, hothers⟩ := List.forall_mem_cons.mp hitems
      rw [List.map_cons, print_sequence_cons, print_sequence_cons, hfirst, hprint hothers]

theorem print_alternation_map {change : Branch P (Expansion P) → Branch P (Expansion P)}
    (hweight : ∀ branch, (change branch).weight? = branch.weight?)
    {branches : List (Branch P (Expansion P))}
    (hbranches : ∀ branch ∈ branches, (change branch).body.print = branch.body.print) :
    (alternation (branches.map change)).print = (alternation branches).print := by
  have hprint : ∀ {branches : List (Branch P (Expansion P))},
      (∀ branch ∈ branches, (change branch).body.print = branch.body.print) →
        printBranches (branches.map change) = printBranches branches := by
    intro branches
    induction branches with
    | nil => exact fun _ => rfl
    | cons branch branches ih =>
        intro hbranches
        obtain ⟨hbranch, hothers⟩ := List.forall_mem_cons.mp hbranches
        rw [List.map_cons, printBranches_cons, printBranches_cons, hweight, hbranch, ih hothers]
  cases branches with
  | nil => rfl
  | cons first others =>
      obtain ⟨hfirst, hothers⟩ := List.forall_mem_cons.mp hbranches
      rw [List.map_cons, print_alternation_cons, print_alternation_cons, hweight, hfirst,
        hprint hothers]

/-- A change of all parts that keeps the names of references keeps the text. -/
theorem print_partwise {change : Expansion P → Expansion P} (hchange : IsPartwise change)
    (hname : ∀ link, (change (.reference link)).print = printName link.name)
    (expansion : Expansion P) : (change expansion).print = expansion.print := by
  induction expansion using structural with
  | literal text => rw [hchange.literal]
  | reference link => exact hname link
  | sequence items ih =>
      rw [hchange.sequence]
      exact print_sequence_map ih
  | alternation branches ih =>
      obtain ⟨share, heq⟩ := hchange.alternation branches
      rw [heq]
      refine print_alternation_map (fun _ => ?_) ih
      rfl
  | repetition body least most? ih =>
      rw [hchange.repetition, print_repetition, print_repetition, ih]
  | optional body ih => rw [hchange.optional, print_optional, print_optional, ih]
  | tagged body tags ih => rw [hchange.tagged, print_tagged, print_tagged, ih]

end Expansion

theorem Rule.print_eq (rule : Rule P) :
    rule.print = (if rule.isPublic then "public".toList ++ [' '] else []) ++
      (Expansion.printName rule.name ++
        ' ' :: '=' :: ' ' :: (rule.body.print ++ [';'])) := by
  have hword : "public ".toList = "public".toList ++ [' '] := by decide
  change (if rule.isPublic then "public ".toList else []) ++ Expansion.printName rule.name ++
    ' ' :: '=' :: ' ' :: rule.body.print ++ [';'] = _
  rw [hword, List.append_assoc, List.append_assoc]
  rfl

namespace Grammar

theorem printRules_cons (rule : Rule P) (rules : List (Rule P)) :
    printRules (rule :: rules) = rule.print ++ '\n' :: printRules rules :=
  rfl

omit [BranchWeight P] in
theorem printImports_cons (name : String) (names : List String) :
    printImports (name :: names) = "import".toList ++
      ' ' :: (Expansion.printName name ++ ';' :: '\n' :: printImports names) := by
  have hword : "import ".toList = "import".toList ++ [' '] := by decide
  change "import ".toList ++ Expansion.printName name ++ ';' :: '\n' :: printImports names = _
  rw [hword, List.append_assoc, List.append_assoc]
  rfl

omit [BranchWeight P] in
theorem printGrammarName_some (name : String) :
    printGrammarName (some name) =
      "grammar".toList ++ ' ' :: (name.toList ++ [';', '\n']) := by
  have hword : "grammar ".toList = "grammar".toList ++ [' '] := by decide
  change "grammar ".toList ++ name.toList ++ [';', '\n'] = _
  rw [hword, List.append_assoc, List.append_assoc]
  rfl

theorem print_eq (grammar : Grammar P) :
    grammar.print = "#JSGF".toList ++ (" V1.0".toList ++ ';' :: '\n' ::
      (printGrammarName grammar.name? ++
        (printImports grammar.imports ++ printRules grammar.rules))) := by
  have hmark : "#JSGF V1.0;\n".toList = "#JSGF".toList ++ (" V1.0".toList ++ [';', '\n']) := by
    decide
  change "#JSGF V1.0;\n".toList ++ printGrammarName grammar.name? ++
    printImports grammar.imports ++ printRules grammar.rules = _
  rw [hmark, List.append_assoc, List.append_assoc, List.append_assoc, List.append_assoc]
  rfl

/-- Only the texts of rules matter to the text of all of them. -/
theorem printRules_congr {rules others : List (Rule P)}
    (hrules : rules.map (·.print) = others.map (·.print)) :
    printRules rules = printRules others := by
  have hjoin : ∀ rules : List (Rule P),
      printRules rules = (rules.map (·.print)).flatMap (· ++ ['\n']) := by
    intro rules
    induction rules with
    | nil => rfl
    | cons rule rules ih =>
        rw [printRules_cons, ih, List.map_cons, List.flatMap_cons, List.append_assoc]
        rfl
  rw [hjoin, hjoin, hrules]

end Grammar

end SpeechGrammar
