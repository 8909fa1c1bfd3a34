import SpeechGrammar.Proofs.Deduction.Fitting
import SpeechGrammar.Proofs.Unfolding.TailRecursion

/-!
# Trimming trees

A tree may iterate without words and may come to a rule again below itself
before any word.  A search leaves such trees out; where rules recurse last,
nothing is lost by that.  Iterations without words that there need not be are
dropped.  A rule that comes up again at the same token is followed by nothing,
so the lower tree can take the place of the upper one.
-/

namespace SpeechGrammar

variable {P : Type} [BranchWeight P] {scope : Scope P} {query : Query}
  {opened : List (Target × Nat)} {start : Nat}

open Expansion (Reaches)

/--
Where an expansion stands below a rule: it recurses last to the rules that are
open, these lead to all rules that it refers to, and none was entered later.
-/
structure Scope.Below (scope : Scope P) (top : Target) (opened : List (Target × Nat))
    (start : Nat) (expansion : Expansion P) : Prop where
  recursesLast : expansion.RecursesLast fun target => ∃ entry ∈ opened, scope.Leads target entry.1
  led : ∀ link target, Reaches (.reference link) expansion → link.target? = some target →
    scope.Leads top target ∧ ∀ entry ∈ opened, scope.Leads entry.1 target
  placed : ∀ entry ∈ opened, entry.2 ≤ start

/--
Some words are those of a small tree of an open rule that was entered at the
same token, and that an expansion leads to.
-/
def Scope.Returns (scope : Scope P) (opened : List (Target × Nat)) (start : Nat)
    (expansion : Expansion P) (words : List String) (bound : Nat) : Prop :=
  ∃ target link next rule tree, (target, start) ∈ opened ∧
    Reaches (.reference link) expansion ∧ link.target? = some next ∧ scope.Leads next target ∧
    scope.follow? target = some rule ∧ Derives scope rule.body tree ∧ tree.words = words ∧
    sizeOf tree < bound

/-- A tree that can be trimmed, or that returns to an open rule and can be left out altogether. -/
def Scope.Trims (scope : Scope P) (query : Query) (opened : List (Target × Nat)) (start : Nat)
    (expansion : Expansion P) (tree : Tree P) : Prop :=
  (∃ other, Derives scope expansion other ∧ other.words = tree.words ∧
    other.Fits query opened start) ∨
  scope.Returns opened start expansion tree.words (sizeOf tree)

namespace Scope

theorem Returns.imp {part expansion : Expansion P} {words : List String} {bound higher : Nat}
    (hreturns : scope.Returns opened start part words bound)
    (hreaches : ∀ link, Reaches (.reference link) part → Reaches (.reference link) expansion)
    (hle : bound ≤ higher) : scope.Returns opened start expansion words higher := by
  obtain ⟨target, link, next, rule, tree, hopen, hlink, hnext, hleads, hrule, htree, hwords, hsize⟩
    := hreturns
  exact ⟨target, link, next, rule, tree, hopen, hreaches link hlink, hnext, hleads, hrule, htree,
    hwords, hsize.trans_le hle⟩

theorem Returns.elim {expansion : Expansion P} {words : List String} {bound : Nat}
    (hreturns : scope.Returns opened start expansion words bound)
    (havoids : expansion.Avoids fun target => ∃ entry ∈ opened, scope.Leads target entry.1) :
    False := by
  obtain ⟨target, link, next, _, _, hopen, hlink, hnext, hleads, -⟩ := hreturns
  exact havoids link next hlink hnext ⟨_, hopen, hleads⟩

variable {top : Target}

theorem Below.part {part expansion : Expansion P} (hbelow : scope.Below top opened start expansion)
    (hlast : part.RecursesLast fun target => ∃ entry ∈ opened, scope.Leads target entry.1)
    (hreaches : ∀ link, Reaches (.reference link) part → Reaches (.reference link) expansion) :
    scope.Below top opened start part :=
  ⟨hlast, fun link target hlink => hbelow.led link target (hreaches link hlink), hbelow.placed⟩

theorem Below.behind {expansion : Expansion P} (hbelow : scope.Below top opened start expansion)
    (width : Nat) : scope.Below top opened (start + width) expansion :=
  ⟨hbelow.recursesLast, hbelow.led, fun entry hentry =>
    (hbelow.placed entry hentry).trans (Nat.le_add_right ..)⟩

theorem Below.enter
    (hrules : ∀ target rule, scope.Leads top target → scope.follow? target = some rule →
      rule.body.RecursesLast fun other => scope.Leads other target)
    {link : Reference} {target : Target} {rule : Rule P}
    (hbelow : scope.Below top opened start (.reference link)) (htarget : link.target? = some target)
    (hrule : scope.follow? target = some rule) :
    scope.Below top ((target, start) :: opened) start rule.body := by
  obtain ⟨htop, hopened⟩ := hbelow.led link target .here htarget
  have hentered : ∀ entry ∈ (target, start) :: opened, scope.Leads entry.1 target :=
    List.forall_mem_cons.mpr ⟨.refl, hopened⟩
  refine ⟨(hrules target rule htop hrule).anti ?_, fun inner next hinner hnext => ?_, ?_⟩
  · rintro other ⟨entry, hentry, hleads⟩
    exact hleads.trans (hentered entry hentry)
  · have hcalls : scope.Calls target next := ⟨rule, inner, hrule, hinner, hnext⟩
    exact ⟨htop.tail hcalls, fun entry hentry => (hentered entry hentry).tail hcalls⟩
  · exact List.forall_mem_cons.mpr ⟨le_refl _, hbelow.placed⟩

/-! ## Sequences and repetitions -/

theorem Returns.width_eq_zero {expansion : Expansion P} {words : List String} {bound width : Nat}
    (hreturns : scope.Returns opened (start + width) expansion words bound)
    (hplaced : ∀ entry ∈ opened, entry.2 ≤ start) : width = 0 := by
  obtain ⟨_, _, _, _, _, hopen, -⟩ := hreturns
  have hle := hplaced _ hopen
  dsimp only at hle
  omega

theorem trims_items {items : List (Expansion P)} {trees : List (Tree P)} {bound : Nat}
    (hderives : Derives scope (.sequence items) (.sequence trees))
    (hbelow : scope.Below top opened start (.sequence items))
    (hspells : query.wordsMatch (Tree.sequence trees).words (query.tokens.drop start) = true)
    (hparts : ∀ tree ∈ trees, ∀ item start, Derives scope item tree →
      scope.Below top opened start item →
      query.wordsMatch tree.words (query.tokens.drop start) = true →
      scope.Trims query opened start item tree)
    (hbound : ∀ tree ∈ trees, sizeOf tree ≤ bound) :
    (∃ others, Derives scope (.sequence items) (.sequence others) ∧
      others.map (·.words) = trees.map (·.words) ∧
      (Tree.sequence others).Fits query opened start) ∨
    scope.Returns opened start (.sequence items) (Tree.sequence trees).words bound := by
  induction items generalizing trees start with
  | nil =>
      obtain rfl := Derives.sequence_nil_iff.mp hderives
      exact .inl ⟨[], hderives, rfl, Tree.fits_nil⟩
  | cons item items ih =>
      obtain ⟨tree, rest, rfl, htree, hrest⟩ := Derives.sequence_cons_iff.mp hderives
      obtain ⟨hhead, htail⟩ := List.forall_mem_cons.mp hparts
      obtain ⟨hsize, hsizes⟩ := List.forall_mem_cons.mp hbound
      rw [Tree.words_cons, Query.wordsMatch_append_iff, List.drop_drop] at hspells
      obtain ⟨hlast, hlasts⟩ := hbelow.recursesLast
      have hitem : item.RecursesLast fun target =>
          ∃ entry ∈ opened, scope.Leads target entry.1 := by
        split at hlast
        · exact hlast
        · exact Expansion.Avoids.recursesLast hlast
      rcases hhead item start htree
        (hbelow.part hitem fun link => .sequence (List.mem_cons_self ..)) hspells.1 with
        ⟨other, hother, hwords, hfits⟩ | hreturns
      · have hwidth : other.width = tree.width := congrArg List.length hwords
        have hbehind : scope.Below top opened (start + tree.width) (.sequence items) := by
          refine (hbelow.behind tree.width).part hlasts fun link hreaches => ?_
          cases hreaches with
          | sequence hmem hinner => exact .sequence (List.mem_cons_of_mem _ hmem) hinner
        rcases ih hrest hbehind hspells.2 htail hsizes with
          ⟨others, hothers, hmap, hfitsRest⟩ | hreturns
        · refine .inl ⟨other :: others,
            Derives.sequence_cons_iff.mpr ⟨other, others, rfl, hother, hothers⟩, ?_, ?_⟩
          · rw [List.map_cons, List.map_cons, hwords, hmap]
          · exact Tree.fits_cons_iff.mpr ⟨hfits, hwidth ▸ hfitsRest⟩
        · have hzero := hreturns.width_eq_zero hbelow.placed
          have hsilent : tree.words = [] := List.eq_nil_of_length_eq_zero hzero
          rw [hzero, Nat.add_zero] at hreturns
          refine .inr ?_
          rw [Tree.words_cons, hsilent, List.nil_append]
          refine hreturns.imp (fun link hreaches => ?_) (le_refl _)
          cases hreaches with
          | sequence hmem hinner => exact .sequence (List.mem_cons_of_mem _ hmem) hinner
      · cases items with
        | nil =>
            obtain rfl := Derives.sequence_nil_iff.mp hrest
            refine .inr ?_
            rw [Tree.words_cons, Tree.words_nil, List.append_nil]
            exact hreturns.imp (fun link => .sequence (List.mem_cons_self ..)) hsize
        | cons next items => exact (hreturns.elim hlast).elim

/-- The iterations that are kept: the least number of them, and those with words. -/
def keptIterations (least : Nat) (trees : List (Tree P)) : List (Tree P) :=
  trees.take least ++ (trees.drop least).filter fun tree => 0 < tree.width

section Kept

variable {least : Nat} {trees : List (Tree P)}

omit [BranchWeight P] in
theorem keptIterations_sublist : (keptIterations least trees).Sublist trees := by
  have hkept := (List.Sublist.refl (trees.take least)).append
    (List.filter_sublist (l := trees.drop least) (p := fun tree => 0 < tree.width))
  rwa [List.take_append_drop] at hkept

omit [BranchWeight P] in
theorem drop_keptIterations (hleast : least ≤ trees.length) :
    (keptIterations least trees).drop least =
      (trees.drop least).filter fun tree => 0 < tree.width := by
  rw [keptIterations, List.drop_append, List.length_take, Nat.min_eq_left hleast, Nat.sub_self,
    List.drop_take_self, List.nil_append, List.drop_zero]

omit [BranchWeight P] in
theorem le_length_keptIterations (hleast : least ≤ trees.length) :
    least ≤ (keptIterations least trees).length := by
  rw [keptIterations, List.length_append, List.length_take, Nat.min_eq_left hleast]
  exact Nat.le_add_right ..

omit [BranchWeight P] in
theorem words_keptIterations :
    (Tree.sequence (keptIterations least trees)).words = (Tree.sequence trees).words := by
  have hfilter : ∀ others : List (Tree P),
      (others.filter fun tree => 0 < tree.width).flatMap (·.words) = others.flatMap (·.words) := by
    intro others
    induction others with
    | nil => rfl
    | cons other others ih =>
        rw [List.filter_cons, List.flatMap_cons]
        split
        · rw [List.flatMap_cons, ih]
        · rename_i hsilent
          have hwords : other.words = [] := by
            simpa [Tree.width, List.length_pos_iff] using hsilent
          rw [hwords, List.nil_append, ih]
  rw [Tree.words_sequence, Tree.words_sequence, keptIterations, List.flatMap_append, hfilter,
    ← List.flatMap_append, List.take_append_drop]

omit [BranchWeight P] in
/-- Beyond the least number, trees with the words of iterations that are kept have some. -/
theorem width_pos_of_keptIterations (hleast : least ≤ trees.length) {others : List (Tree P)}
    (hwords : others.map (·.words) = (keptIterations least trees).map (·.words)) :
    ∀ other ∈ others.drop least, 0 < other.width := by
  intro other hother
  have hkept : other.words ∈ ((keptIterations least trees).drop least).map (·.words) := by
    rw [List.map_drop, ← hwords, ← List.map_drop]
    exact List.mem_map_of_mem hother
  rw [drop_keptIterations hleast] at hkept
  obtain ⟨tree, htree, heq⟩ := List.mem_map.mp hkept
  have hwide : 0 < tree.width := of_decide_eq_true (List.mem_filter.mp htree).2
  rwa [Tree.width, heq] at hwide

end Kept

/-- Iterations are trimmed one by one, without those that there need not be. -/
theorem trims_iterations {body : Expansion P} {least : Nat} {most? : Option Nat}
    {trees : List (Tree P)} (hleast : least ≤ trees.length)
    (hmost : ∀ most ∈ most?, trees.length ≤ most)
    (htrees : ∀ tree ∈ trees, Derives scope body tree)
    (hbelow : scope.Below top opened start (.repetition body least most?))
    (hspells : query.wordsMatch (Tree.sequence trees).words (query.tokens.drop start) = true)
    (hparts : ∀ tree ∈ trees, ∀ item start, Derives scope item tree →
      scope.Below top opened start item →
      query.wordsMatch tree.words (query.tokens.drop start) = true →
      scope.Trims query opened start item tree) :
    scope.Trims query opened start (.repetition body least most?) (.iterations least trees) := by
  have hsublist : (keptIterations least trees).Sublist trees := keptIterations_sublist
  have hlength : ∀ most ∈ most?, (keptIterations least trees).length ≤ most :=
    fun most hmem => hsublist.length_le.trans (hmost most hmem)
  have hcount := le_length_keptIterations hleast
  rw [← words_keptIterations] at hspells
  have hderives : Derives scope
      (.sequence (List.replicate (keptIterations least trees).length body))
      (.sequence (keptIterations least trees)) :=
    Derives.sequence_replicate_iff.mpr
      ⟨rfl, fun tree htree => htrees tree (hsublist.subset htree)⟩
  have hreaches : ∀ link, Reaches (.reference link)
      (.sequence (List.replicate (keptIterations least trees).length body)) →
      Reaches (.reference link) (.repetition body least most?) := by
    rintro link (_ | ⟨hmem, hinner⟩)
    obtain ⟨hsome, rfl⟩ := List.mem_replicate.mp hmem
    refine .repetition least (fun hnone => hsome ?_) hinner
    exact Nat.le_zero.mp (hlength 0 hnone)
  have hlast := Expansion.recursesLastItems_replicate hbelow.recursesLast hlength
  have hstands : scope.Below top opened start
      (.sequence (List.replicate (keptIterations least trees).length body)) :=
    hbelow.part hlast hreaches
  have hsizes : ∀ tree ∈ keptIterations least trees,
      sizeOf tree ≤ sizeOf (Tree.iterations least trees) := by
    intro tree htree
    have hless := List.sizeOf_lt_of_mem (hsublist.subset htree)
    simp only [Tree.iterations.sizeOf_spec]
    omega
  rcases trims_items hderives hstands hspells
    (fun tree htree => hparts tree (hsublist.subset htree)) hsizes with
    ⟨others, hothers, hmap, hfits⟩ | hreturns
  · obtain ⟨hcountOthers, hall⟩ := Derives.sequence_replicate_iff.mp hothers
    have hwords : (Tree.sequence others).words = (Tree.sequence trees).words :=
      (Tree.words_sequence_congr _ hmap).trans words_keptIterations
    refine .inl ⟨.iterations least others, .repetition (hcountOthers ▸ hcount)
      (fun most hmem => hcountOthers ▸ hlength most hmem) hall, hwords, ?_⟩
    exact Tree.fits_iterations_iff.mpr ⟨width_pos_of_keptIterations hleast hmap, hfits⟩
  · rw [words_keptIterations] at hreturns
    exact .inr (hreturns.imp hreaches (le_refl _))

/-! ## Trees of expansions -/

theorem trims_reference
    (hrules : ∀ target rule, scope.Leads top target → scope.follow? target = some rule →
      rule.body.RecursesLast fun other => scope.Leads other target)
    {link : Reference} {target : Target} {rule : Rule P} {body : Tree P}
    (htarget : link.target? = some target) (hrule : scope.follow? target = some rule)
    (hbody : Derives scope rule.body body)
    (hbelow : scope.Below top opened start (.reference link))
    (hspells : query.wordsMatch body.words (query.tokens.drop start) = true)
    (hsmaller : ∀ tree : Tree P, sizeOf tree < sizeOf (Tree.rule target body) →
      ∀ expansion opened, Derives scope expansion tree →
        scope.Below top opened start expansion →
        query.wordsMatch tree.words (query.tokens.drop start) = true →
        scope.Trims query opened start expansion tree) :
    scope.Trims query opened start (.reference link) (.rule target body) := by
  have hsize : sizeOf body < sizeOf (Tree.rule target body) := by
    simp only [Tree.rule.sizeOf_spec]
    omega
  by_cases hopen : (target, start) ∈ opened
  · exact .inr ⟨target, link, target, rule, body, hopen, .here, htarget, .refl, hrule, hbody, rfl,
      hsize⟩
  · rcases hsmaller body hsize rule.body _ hbody (hbelow.enter hrules htarget hrule) hspells with
      ⟨other, hother, hwords, hfits⟩ | ⟨back, inner, next, found, lower, hback, hinner, hnext,
        hleads, hfound, hlower, hwords, hless⟩
    · exact .inl ⟨.rule target other, .reference htarget hrule hother, hwords,
        Tree.fits_rule_iff.mpr ⟨hopen, hfits⟩⟩
    · rcases List.mem_cons.mp hback with heq | hback
      · -- The rule itself comes up again: its lower tree takes the place of the upper one.
        obtain ⟨rfl, -⟩ := Prod.mk.inj heq
        obtain rfl := Option.some.inj (hrule.symm.trans hfound)
        have hlowerSize : sizeOf (Tree.rule back lower) < sizeOf (Tree.rule back body) := by
          simp only [Tree.rule.sizeOf_spec]
          omega
        have hlowerWords : (Tree.rule back lower).words = (Tree.rule back body).words := hwords
        rcases hsmaller (.rule back lower) hlowerSize (.reference link) opened
          (.reference htarget hrule hlower) hbelow (by rw [hlowerWords]; exact hspells) with
          ⟨other, hother, hsame, hfits⟩ | hreturns
        · exact .inl ⟨other, hother, hsame.trans hlowerWords, hfits⟩
        · rw [hlowerWords] at hreturns
          exact .inr (hreturns.imp (fun _ => id) hlowerSize.le)
      · have hcalls : scope.Calls target next := ⟨rule, inner, hrule, hinner, hnext⟩
        exact .inr ⟨back, link, target, found, lower, hback, .here, htarget, .head hcalls hleads,
          hfound, hlower, hwords, hless.trans hsize⟩

/-- Where rules recurse last, every tree whose words match is trimmed. -/
theorem trims_of_derives
    (hrules : ∀ target rule, scope.Leads top target → scope.follow? target = some rule →
      rule.body.RecursesLast fun other => scope.Leads other target)
    {expansion : Expansion P} {tree : Tree P} (hderives : Derives scope expansion tree)
    (hbelow : scope.Below top opened start expansion)
    (hspells : query.wordsMatch tree.words (query.tokens.drop start) = true) :
    scope.Trims query opened start expansion tree := by
  induction hsize : sizeOf tree using Nat.strongRecOn generalizing expansion tree opened start with
  | ind size ih =>
      subst hsize
      have hsmaller : ∀ smaller : Tree P, sizeOf smaller < sizeOf tree →
          ∀ expansion opened start, Derives scope expansion smaller →
            scope.Below top opened start expansion →
            query.wordsMatch smaller.words (query.tokens.drop start) = true →
            scope.Trims query opened start expansion smaller :=
        fun smaller hless expansion opened start hderives hbelow hspells =>
          ih _ hless hderives hbelow hspells rfl
      clear ih
      have hiterations : ∀ {least : Nat} {trees : List (Tree P)} {tree : Tree P}, tree ∈ trees →
          sizeOf tree < sizeOf (Tree.iterations least trees) := by
        intro least trees tree htree
        have hmem := List.sizeOf_lt_of_mem htree
        simp only [Tree.iterations.sizeOf_spec]
        omega
      cases hderives with
      | literal text =>
          exact .inl ⟨.word text, .literal text, rfl,
            Tree.fits_word_iff.mpr (by simpa using hspells)⟩
      | reference htarget hrule hbody =>
          exact trims_reference hrules htarget hrule hbody hbelow hspells
            fun smaller hless expansion opened => hsmaller smaller hless expansion opened start
      | @sequence items trees hlength hitems =>
          have hless : ∀ tree ∈ trees, sizeOf tree < sizeOf (Tree.sequence trees) := by
            intro tree htree
            have hmem := List.sizeOf_lt_of_mem htree
            simp only [Tree.sequence.sizeOf_spec]
            omega
          rcases trims_items (.sequence hlength hitems) hbelow hspells
            (fun tree htree item start => hsmaller tree (hless tree htree) item opened start)
            (fun tree htree => (hless tree htree).le) with ⟨others, hothers, hmap, hfits⟩ | hreturns
          · exact .inl ⟨.sequence others, hothers, Tree.words_sequence_congr _ hmap, hfits⟩
          · exact .inr hreturns
      | @alternation branches branch body hmem hpositive hbody =>
          have hlast := Expansion.recursesLastBranches_iff.mp hbelow.recursesLast branch hmem
            hpositive
          rcases hsmaller body (by simp) branch.body opened start hbody
            (hbelow.part hlast fun link => .alternation hmem hpositive) hspells with
            ⟨other, hother, hwords, hfits⟩ | hreturns
          · exact .inl ⟨.branch branch.probability other, .alternation hmem hpositive hother,
              hwords, Tree.fits_branch_iff.mpr hfits⟩
          · exact .inr (hreturns.imp (fun link => .alternation hmem hpositive) (by simp))
      | @repetition body least most? trees hleast hmost htrees =>
          exact trims_iterations hleast hmost htrees hbelow hspells fun tree htree item start =>
            hsmaller tree (hiterations htree) item opened start
      | @optional body _ htree =>
          cases htree with
          | @repetition _ _ _ trees hleast hmost htrees =>
              have hreaches : ∀ link, Reaches (.reference link) (.repetition body 0 (some 1)) →
                  Reaches (.reference link) body.optional :=
                fun link hlink => Expansion.reaches_optional hlink (by simp)
              have hstands : scope.Below top opened start (.repetition body 0 (some 1)) :=
                hbelow.part (.inr (.inl ⟨rfl, hbelow.recursesLast⟩)) hreaches
              rcases trims_iterations hleast hmost htrees hstands hspells
                (fun tree htree item start => hsmaller tree (hiterations htree) item opened start)
                with ⟨other, hother, hwords, hfits⟩ | hreturns
              · exact .inl ⟨other, .optional hother, hwords, hfits⟩
              · exact .inr (hreturns.imp hreaches (le_refl _))
      | @tagged body tags inner hbody =>
          have hless : sizeOf inner < sizeOf (Tree.tagged inner tags) := by
            simp only [Tree.tagged.sizeOf_spec]
            omega
          rcases hsmaller inner hless body opened start hbody
            (hbelow.part hbelow.recursesLast fun link => .tagged tags) hspells with
            ⟨other, hother, hwords, hfits⟩ | hreturns
          · exact .inl ⟨.tagged other tags, .tagged hother, hwords, Tree.fits_tagged_iff.mpr hfits⟩
          · exact .inr (hreturns.imp (fun link => .tagged tags) hless.le)

end Scope

end SpeechGrammar
