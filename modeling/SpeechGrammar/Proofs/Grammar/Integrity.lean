import SpeechGrammar.Proofs.Grammar.FromText
import SpeechGrammar.Proofs.Grammar.Linking
import SpeechGrammar.Proofs.Grammar.Lookup
import SpeechGrammar.Proofs.ExactProbability

/-!
# The integrity of references

A grammar may be read from a text or made up rule by rule; its references may
be bound, its probabilities computed, its vocabulary extended, and copies be
made of it.  Whatever is done, no two of its rules have the same name, the index
has the place of each of them, and a reference that is bound leads to a rule with
the last segment of its name.  Binding is what establishes the last of these; the
other steps keep it.
-/

namespace SpeechGrammar

variable {P : Type}

/-- The place of a rule in one of some grammars, with the last segment of a name. -/
def Target.Means (target : Target) (name : String) (chain : List (Grammar P)) : Prop :=
  ∃ grammar ∈ chain, grammar.id = target.grammar ∧
    ∃ segment, IsLastSegment segment name ∧ grammar.ruleNames[target.index]? = some segment

/-- References of a rule lead to the rules they name wherever they are bound. -/
def Rule.Leads (rule : Rule P) (chain : List (Grammar P)) : Prop :=
  ∀ link ∈ rule.body.references, ∀ target ∈ link.target?, target.Means link.name chain

/--
Grammars that inherit one from another, each with an identity of its own and with references that
lead to the rules they name.
-/
def Grammar.Coherent : List (Grammar P) → Prop
  | [] => True
  | grammar :: parents =>
      (∀ parent ∈ parents, parent.id ≠ grammar.id) ∧
        (∀ rule ∈ grammar.rules, rule.Leads (grammar :: parents)) ∧ Grammar.Coherent parents

def Scope.Coherent (scope : Scope P) : Prop := Grammar.Coherent scope.chain

theorem Target.means_cons_iff {target : Target} {name : String} {grammar : Grammar P}
    {parents : List (Grammar P)} :
    target.Means name (grammar :: parents) ↔
      (grammar.id = target.grammar ∧
        ∃ segment, IsLastSegment segment name ∧ grammar.ruleNames[target.index]? = some segment) ∨
      target.Means name parents := by
  simp [Means]

theorem Target.Means.replace {target : Target} {name : String} {grammar other : Grammar P}
    {parents : List (Grammar P)} (hmeans : target.Means name (grammar :: parents))
    (hid : other.id = grammar.id) (hnames : grammar.ruleNames <+: other.ruleNames) :
    target.Means name (other :: parents) := by
  rw [means_cons_iff] at hmeans ⊢
  refine hmeans.imp_left fun ⟨hown, segment, hsegment, hplace⟩ => ?_
  obtain ⟨hlt, rfl⟩ := List.getElem?_eq_some_iff.mp hplace
  exact ⟨hid.trans hown, _, hsegment, List.prefix_iff_getElem?.mp hnames target.index hlt⟩

theorem Rule.Leads.replace {rule other : Rule P} {grammar more : Grammar P}
    {parents : List (Grammar P)} (hleads : rule.Leads (grammar :: parents))
    (hreferences : other.body.references = rule.body.references) (hid : more.id = grammar.id)
    (hnames : grammar.ruleNames <+: more.ruleNames) : other.Leads (more :: parents) := by
  intro link hlink target htarget
  rw [hreferences] at hlink
  exact (hleads link hlink target htarget).replace hid hnames

namespace Grammar.Coherent

variable {chain : List (Grammar P)}

theorem pairwise (hcoherent : Grammar.Coherent chain) :
    chain.Pairwise fun first second => second.id ≠ first.id := by
  induction chain with
  | nil => exact .nil
  | cons grammar chain ih => exact .cons hcoherent.1 (ih hcoherent.2.2)

theorem rule (hcoherent : Grammar.Coherent chain) {grammar : Grammar P}
    (hgrammar : grammar ∈ chain) {rule : Rule P} (hrule : rule ∈ grammar.rules) :
    rule.Leads chain := by
  induction chain with
  | nil => cases hgrammar
  | cons first chain ih =>
      rcases List.mem_cons.mp hgrammar with rfl | hgrammar
      · exact hcoherent.2.1 rule hrule
      · intro link hlink target htarget
        obtain ⟨other, hother, hplace⟩ := ih hcoherent.2.2 hgrammar link hlink target htarget
        exact ⟨other, List.mem_cons_of_mem _ hother, hplace⟩

end Grammar.Coherent

/-- In a coherent scope a target is followed to the rule whose name it was bound by. -/
theorem Target.Means.exists_follow? {scope : Scope P} (hcoherent : scope.Coherent)
    {target : Target} {name : String} (hmeans : target.Means name scope.chain) :
    ∃ found, scope.follow? target = some found ∧ IsLastSegment found.name name := by
  obtain ⟨grammar, hgrammar, hid, segment, hsegment, hplace⟩ := hmeans
  rw [Grammar.ruleNames, List.getElem?_map] at hplace
  obtain ⟨found, hfound, rfl⟩ := Option.map_eq_some_iff.mp hplace
  refine ⟨found, ?_, hsegment⟩
  rw [Scope.follow?, Scope.grammarWith?, ← hid,
    Grammar.find?_eq_of_pairwise hcoherent.pairwise hgrammar]
  exact hfound

namespace Scope

variable {scope : Scope P}

/-! ## Changes to a scope's own grammar -/

theorem exists_of_mem_resolve {rule : Rule P} (hrule : rule ∈ scope.resolve.grammar.rules) :
    ∃ old ∈ scope.grammar.rules, rule.name = old.name ∧
      rule.body = old.body.mapReferences scope.bindReference ∧
      rule.unresolved = rule.body.unboundNames := by
  obtain ⟨index, hindex, rfl⟩ := List.mem_mapIdx.mp hrule
  obtain ⟨old, hold, heq⟩ := List.mem_map.mp (List.getElem_mem hindex)
  refine ⟨old, hold, ?_⟩
  rw [← heq]
  exact ⟨rfl, rfl, rfl⟩

/-- What a name means depends on the names of grammars and rules only. -/
theorem Nearest.replace {name : String} {target : Target} (hnearest : scope.Nearest name target)
    {grammar : Grammar P} (hid : grammar.id = scope.grammar.id)
    (hname : grammar.name? = scope.grammar.name?)
    (hnames : grammar.ruleNames = scope.grammar.ruleNames) :
    ({ scope with grammar } : Scope P).Nearest name target := by
  obtain ⟨nearer, found, farther, segment, hchain, hsegment, hanswers, hown, hplace, hfirst⟩ :=
    hnearest
  have hsame : grammar.Answers name ↔ scope.grammar.Answers name := by
    rw [Grammar.Answers, Grammar.Answers, hname]
  cases nearer with
  | nil =>
      obtain ⟨rfl, rfl⟩ := List.cons.inj hchain
      exact ⟨[], grammar, scope.parents, segment, rfl, hsegment, hsame.mpr hanswers,
        hid.trans hown, hnames ▸ hplace, hfirst⟩
  | cons first nearer =>
      obtain ⟨rfl, hparents⟩ := List.cons.inj hchain
      obtain ⟨hhere, hothers⟩ := List.forall_mem_cons.mp hfirst
      refine ⟨grammar :: nearer, found, farther, segment, congrArg (List.cons grammar) hparents,
        hsegment, hanswers, hown, hplace, List.forall_mem_cons.mpr ⟨fun hother => ?_, hothers⟩⟩
      rw [hnames]
      exact hhere (hsame.mp hother)

theorem nearest_resolve_iff {name : String} {target : Target} :
    scope.resolve.Nearest name target ↔ scope.Nearest name target :=
  ⟨fun hnearest => hnearest.replace rfl rfl scope.ruleNames_resolve.symm,
    fun hnearest => hnearest.replace rfl rfl scope.ruleNames_resolve⟩

theorem Indexed.exists_nearest_iff (hindexed : scope.Indexed) {name : String} :
    (∃ target, scope.Nearest name target) ↔ ∃ grammar ∈ scope.chain, ∃ segment ∈ grammar.ruleNames,
      IsLastSegment segment name ∧ grammar.Answers name := by
  have hlookup : ∀ target, scope.lookup? ⟨name, none⟩ = some target ↔ scope.Nearest name target :=
    fun target => hindexed.lookup?_eq_some_iff
  simp only [← hlookup, ← Option.isSome_iff_exists]
  exact hindexed.isSome_lookup?_iff

theorem Nearest.means {name : String} {target : Target} (hnearest : scope.Nearest name target) :
    target.Means name scope.chain := by
  obtain ⟨nearer, grammar, farther, segment, hchain, hsegment, -, hid, hplace, -⟩ := hnearest
  have hgrammar : grammar ∈ scope.chain := hchain ▸ List.mem_append_right _ (.head _)
  exact ⟨grammar, hgrammar, hid, segment, hsegment, hplace⟩

/-- Once references are bound each is bound to what its name means, and to nothing else. -/
theorem target?_of_mem_resolve (hindexed : scope.Indexed) {rule : Rule P}
    (hrule : rule ∈ scope.resolve.grammar.rules) {link : Reference}
    (hlink : link ∈ rule.body.references) (target : Target) :
    link.target? = some target ↔ scope.Nearest link.name target := by
  obtain ⟨old, -, -, hbody, -⟩ := exists_of_mem_resolve hrule
  rw [hbody, Expansion.references_mapReferences] at hlink
  obtain ⟨origin, -, rfl⟩ := List.mem_map.mp hlink
  exact hindexed.lookup?_eq_some_iff

/-- Once its references are bound a scope is coherent if the grammars behind its own one are. -/
theorem coherent_resolve (hindexed : scope.Indexed)
    (hfresh : ∀ parent ∈ scope.parents, parent.id ≠ scope.grammar.id)
    (hparents : Grammar.Coherent scope.parents) : scope.resolve.Coherent := by
  refine ⟨hfresh, fun rule hrule link hlink target htarget => ?_, hparents⟩
  have hnearest := (target?_of_mem_resolve hindexed hrule hlink target).mp htarget
  exact (nearest_resolve_iff.mpr hnearest).means

namespace Coherent

theorem replace (hcoherent : scope.Coherent) {grammar : Grammar P}
    (hid : grammar.id = scope.grammar.id)
    (hleads : ∀ rule ∈ grammar.rules, rule.Leads (grammar :: scope.parents)) :
    ({ scope with grammar } : Scope P).Coherent :=
  ⟨hid ▸ hcoherent.1, hleads, hcoherent.2.2⟩

theorem normalize [BranchWeight P] (hcoherent : scope.Coherent) : scope.normalize.Coherent := by
  refine hcoherent.replace rfl fun rule hrule => ?_
  obtain ⟨old, hold, rfl⟩ := List.mem_map.mp hrule
  exact (hcoherent.2.1 old hold).replace (Expansion.references_withProbabilities ..) rfl
    (scope.ruleNames_normalize ▸ List.prefix_rfl)

theorem addWord (hcoherent : scope.Coherent) (word : String) :
    ({ scope with grammar := scope.grammar.addWord word } : Scope P).Coherent :=
  hcoherent.replace rfl fun rule hrule =>
    (hcoherent.2.1 rule hrule).replace rfl rfl List.prefix_rfl

theorem addRule (hcoherent : scope.Coherent) {rule : Rule P} {more : Grammar P}
    (hunbound : ∀ link ∈ rule.body.references, link.target? = none)
    (hadd : scope.grammar.add? rule = some more) :
    ({ scope with grammar := more } : Scope P).Coherent := by
  obtain rfl := Grammar.eq_push_of_add? hadd
  refine hcoherent.replace rfl (List.forall_mem_append.mpr ⟨fun other hother => ?_, ?_⟩)
  · exact (hcoherent.2.1 other hother).replace rfl rfl
      (Grammar.ruleNames_push scope.grammar rule ▸ List.prefix_append ..)
  · refine List.forall_mem_singleton.mpr fun link hlink target htarget => ?_
    rw [hunbound link hlink] at htarget
    cases htarget

/-- References to rules of a copied grammar lead to the copies. -/
theorem copy (hcoherent : scope.Coherent) {id : GrammarId}
    (hfresh : ∀ parent ∈ scope.parents, parent.id ≠ id) : (scope.copy id).Coherent := by
  have hnames : (scope.copy id).grammar.ruleNames = scope.grammar.ruleNames := List.map_map
  refine ⟨hfresh, fun rule hrule => ?_, hcoherent.2.2⟩
  obtain ⟨old, hold, rfl⟩ := List.mem_map.mp hrule
  intro link hlink moved hmoved
  rw [Expansion.references_mapReferences] at hlink
  obtain ⟨origin, horigin, rfl⟩ := List.mem_map.mp hlink
  obtain ⟨target, htarget, rfl⟩ := Option.map_eq_some_iff.mp hmoved
  rcases Target.means_cons_iff.mp (hcoherent.2.1 old hold origin horigin target htarget) with
    ⟨hown, segment, hsegment, hplace⟩ | hparents
  · rw [if_pos hown.symm]
    exact Target.means_cons_iff.mpr (.inl ⟨rfl, segment, hsegment, hnames ▸ hplace⟩)
  · obtain ⟨parent, hparent, hid, hplace⟩ := hparents
    rw [if_neg fun hown => hcoherent.1 parent hparent (hid.trans hown)]
    exact Target.means_cons_iff.mpr (.inr ⟨parent, hparent, hid, hplace⟩)

end Coherent

theorem coherent_child (id : GrammarId) {parent? : Option (Scope P)}
    (hparent : ∀ parent ∈ parent?, parent.Coherent)
    (hfresh : ∀ parent ∈ parent?, parent.Fresh id) : (child id parent?).Coherent := by
  refine ⟨?_, fun rule hrule => (nomatch hrule), ?_⟩
  · cases parent? with
    | none => exact fun parent hmem => nomatch hmem
    | some parent => exact hfresh parent rfl
  · cases parent? with
    | none => trivial
    | some parent => exact hparent parent rfl

/-! ## All that can be done -/

/--
Scopes as they come about by making up grammars, reading texts and whatever may be done
afterwards, when every grammar gets an identity of its own.
-/
inductive Reachable [BranchWeight P] : Scope P → Prop where
  | empty (id : GrammarId) {parent? : Option (Scope P)}
      (hparent : ∀ parent ∈ parent?, Reachable parent)
      (hfresh : ∀ parent ∈ parent?, parent.Fresh id) : Reachable (child id parent?)
  | read (id : GrammarId) (text : String) {parent? : Option (Scope P)}
      (hparent : ∀ parent ∈ parent?, Reachable parent)
      (hfresh : ∀ parent ∈ parent?, parent.Fresh id) : Reachable (parseLenient id text parent?).1
  | addRule {scope : Scope P} (hscope : Reachable scope) {rule : Rule P} {more : Grammar P}
      (hunbound : ∀ link ∈ rule.body.references, link.target? = none)
      (hadd : scope.grammar.add? rule = some more) : Reachable { scope with grammar := more }
  | resolve {scope : Scope P} (hscope : Reachable scope) : Reachable scope.resolve
  | normalize {scope : Scope P} (hscope : Reachable scope) : Reachable scope.normalize
  | addWord {scope : Scope P} (hscope : Reachable scope) (word : String) :
      Reachable { scope with grammar := scope.grammar.addWord word }
  | copy {scope : Scope P} (hscope : Reachable scope) (id : GrammarId)
      (hfresh : scope.Fresh id) : Reachable (scope.copy id)

section Reachable

variable [BranchWeight P]

theorem reachable_of_parse {id : GrammarId} {text : String} {parent? : Option (Scope P)}
    (hparent : ∀ parent ∈ parent?, parent.Reachable)
    (hfresh : ∀ parent ∈ parent?, parent.Fresh id) (hparse : parse id text parent? = .ok scope) :
    scope.Reachable := by
  have hread := Reachable.read id text hparent hfresh
  rwa [parse_eq_ok_iff.mp hparse] at hread

/-- Whatever is done, the index of each grammar stays exact. -/
theorem Reachable.indexed (hscope : scope.Reachable) : scope.Indexed := by
  induction hscope with
  | empty id _ _ ih => exact indexed_child id ih
  | read id text _ _ ih => exact indexed_parseLenient id text ih
  | addRule _ _ hadd ih => exact ih.addRule hadd
  | resolve _ ih => exact ih.resolve
  | normalize _ ih => exact ih.normalize
  | addWord _ word ih => exact ih.addWord word
  | copy _ id _ ih => exact ih.copy id

/-- Whatever is done, scopes stay coherent. -/
theorem Reachable.coherent (hscope : scope.Reachable) : scope.Coherent := by
  induction hscope with
  | empty id _ hfresh ih => exact coherent_child id ih hfresh
  | read id text hparent hfresh ih =>
      have hchild := coherent_child id ih hfresh
      have hindexed := indexed_child id fun parent hmem => (hparent parent hmem).indexed
      refine Coherent.normalize (coherent_resolve ?_ ?_ hchild.2.2)
      · exact hindexed.replace (Draft.indexed_ofText hindexed.grammar text.toList)
      · rw [Draft.id_ofText]
        exact hchild.1
  | addRule _ hunbound hadd ih => exact ih.addRule hunbound hadd
  | resolve hscope ih => exact coherent_resolve hscope.indexed ih.1 ih.2.2
  | normalize _ ih => exact ih.normalize
  | addWord _ word ih => exact ih.addWord word
  | copy _ id hfresh ih => exact ih.copy fun parent hparent => hfresh parent (.tail _ hparent)

/--
However a scope comes about, each of its grammars has different names for its rules, its index has
each of these names with the place of the rule and nothing else, and bound references are followed
to rules with the last segments of their names.  Once its references are bound, each is bound to
the rule of that name in the nearest grammar that answers, and only if there is one; and the names
that are not bound are listed, each once, rule by rule.
-/
theorem Reachable.references_lead_to_named_rules (hscope : scope.Reachable) :
    (∀ grammar ∈ scope.chain, grammar.ruleNames.Nodup ∧
      (∀ (name : String) (index : Nat), grammar.byName[name]? = some index ↔
        grammar.ruleNames[index]? = some name) ∧
      ∀ rule ∈ grammar.rules, ∀ link ∈ rule.body.references, ∀ target ∈ link.target?,
        ∃ found, scope.follow? target = some found ∧ IsLastSegment found.name link.name) ∧
    (∀ rule ∈ scope.resolve.grammar.rules,
      (∀ link ∈ rule.body.references,
        (link.target? ≠ none ↔ ∃ grammar ∈ scope.resolve.chain,
          ∃ segment ∈ grammar.ruleNames, IsLastSegment segment link.name ∧
            grammar.Answers link.name) ∧
        ∀ target, link.target? = some target ↔ scope.resolve.Nearest link.name target) ∧
      rule.unresolved =
        ((rule.body.references.filter (·.target?.isNone)).map (·.name)).eraseDups) ∧
    scope.resolve.grammar.unresolved = scope.resolve.grammar.rules.flatMap fun rule =>
      ((rule.body.references.filter (·.target?.isNone)).map (·.name)).eraseDups.map
        fun name => ⟨rule.name, name⟩ := by
  have hindexed := hscope.indexed
  have hcoherent := hscope.coherent
  have hunresolved : ∀ rule ∈ scope.resolve.grammar.rules, rule.unresolved =
      ((rule.body.references.filter (·.target?.isNone)).map (·.name)).eraseDups := by
    intro rule hrule
    obtain ⟨-, -, -, -, heq⟩ := exists_of_mem_resolve hrule
    rw [heq, Expansion.unboundNames, distinct_eq_eraseDups]
  refine ⟨fun grammar hgrammar => ?_, fun rule hrule => ⟨fun link hlink => ?_, ?_⟩, ?_⟩
  · refine ⟨(hindexed grammar hgrammar).nodup, hindexed grammar hgrammar, ?_⟩
    intro rule hrule link hlink target htarget
    have hmeans := Grammar.Coherent.rule hcoherent hgrammar hrule link hlink target htarget
    exact hmeans.exists_follow? hcoherent
  · have hbound : ∀ target, link.target? = some target ↔ scope.resolve.Nearest link.name target :=
      fun target =>
        (target?_of_mem_resolve hindexed hrule hlink target).trans nearest_resolve_iff.symm
    refine ⟨?_, hbound⟩
    rw [← hindexed.resolve.exists_nearest_iff, Option.ne_none_iff_exists']
    exact exists_congr hbound
  · exact hunresolved rule hrule
  · exact List.flatMap_congr fun rule hrule => by rw [hunresolved rule hrule]

end Reachable

def greetingsText : String := "grammar house.greetings; public <word> = hello | <tone> hi;"

def visitingText : String :=
  "grammar visiting; <word> = well; " ++
    "public <all> = <word> <greetings.word> [<farewells.word>] <farewells.word>;"

def greetings : Scope ℚ := (parseLenient ⟨0⟩ greetingsText none).1

def visiting : Scope ℚ := (parseLenient ⟨1⟩ visitingText (some greetings)).1

/--
The index of the copy has the rule `<all>` at place 1.  Once the copy is bound, `<word>` leads to
the copied rule, `<greetings.word>` to the rule of the parent, and `<farewells.word>` is listed
once as unbound.
-/
theorem visiting_copy_names_rules : (visiting.copy ⟨2⟩).Reachable ∧
    (visiting.copy ⟨2⟩).grammar.byName["all"]? = some 1 ∧
    ∃ rule ∈ (visiting.copy ⟨2⟩).resolve.grammar.rules,
      rule.body.references.map (fun link => (link.name, link.target?)) =
        [("word", some ⟨⟨2⟩, 0⟩), ("greetings.word", some ⟨⟨0⟩, 0⟩), ("farewells.word", none),
          ("farewells.word", none)] ∧
      (visiting.copy ⟨2⟩).resolve.Nearest "greetings.word" ⟨⟨0⟩, 0⟩ ∧
      rule.unresolved = ["farewells.word"] := by
  have hgreetings : greetings.Reachable := .read ⟨0⟩ greetingsText (by simp) (by simp)
  have hvisiting : visiting.Reachable := by
    refine .read ⟨1⟩ visitingText (by simpa using hgreetings) fun parent hparent => ?_
    obtain rfl := Option.some.inj hparent
    exact (by decide +kernel : ∀ grammar ∈ greetings.chain, grammar.id ≠ ⟨1⟩)
  have hcopy : (visiting.copy ⟨2⟩).Reachable :=
    hvisiting.copy ⟨2⟩ (by decide +kernel : ∀ grammar ∈ visiting.chain, grammar.id ≠ ⟨2⟩)
  obtain ⟨rule, hrule, hreferences⟩ := (by decide +kernel :
    ∃ rule ∈ (visiting.copy ⟨2⟩).resolve.grammar.rules,
      rule.body.references.map (fun link => (link.name, link.target?)) =
        [("word", some ⟨⟨2⟩, 0⟩), ("greetings.word", some ⟨⟨0⟩, 0⟩), ("farewells.word", none),
          ("farewells.word", none)])
  obtain ⟨hgrammars, hresolved, -⟩ := hcopy.references_lead_to_named_rules
  obtain ⟨-, hindex, -⟩ := hgrammars (visiting.copy ⟨2⟩).grammar (.head _)
  have hplace : (visiting.copy ⟨2⟩).grammar.ruleNames[1]? = some "all" := by decide +kernel
  obtain ⟨hlinks, hunresolved⟩ := hresolved rule hrule
  refine ⟨hcopy, (hindex "all" 1).mpr hplace, rule, hrule, hreferences, ?_, ?_⟩
  · have hlisted : ("greetings.word", some ⟨⟨0⟩, 0⟩) ∈
        rule.body.references.map fun link => (link.name, link.target?) := by
      rw [hreferences]
      simp
    obtain ⟨link, hlink, heq⟩ := List.mem_map.mp hlisted
    obtain ⟨hname, htarget⟩ := Prod.mk.inj heq
    exact hname ▸ ((hlinks link hlink).2 _).mp htarget
  · have hnames : (rule.body.references.filter (·.target?.isNone)).map (·.name) =
        ["farewells.word", "farewells.word"] := by
      have hpairs := congrArg (fun pairs => (pairs.filter (·.2.isNone)).map Prod.fst) hreferences
      simpa [List.filter_map, Function.comp_def] using hpairs
    rw [hunresolved, hnames]
    rfl

end Scope

end SpeechGrammar
