import Mathlib.Data.List.Basic
import Mathlib.Logic.Function.Basic
import Mathlib.Logic.Relation
import SpeechGrammar.Graph

/-!
# Depth-first search finds what is reachable

A search that may go as deep as there are nodes visits exactly the nodes that
its roots lead to.  The reason is the usual one: whatever a visit adds has its
successors added too, and a visit goes deeper only from a new node.
-/

namespace SpeechGrammar.Graph

variable {Node : Type} {successors : Node → List Node}

def Leads (successors : Node → List Node) : Node → Node → Prop :=
  Relation.ReflTransGen fun first second => second ∈ successors first

theorem Leads.mem_of_closed {closed : List Node}
    (hclosed : ∀ node ∈ closed, successors node ⊆ closed) {first last : Node}
    (hleads : Leads successors first last) (hfirst : first ∈ closed) : last ∈ closed := by
  induction hleads with
  | refl => exact hfirst
  | tail _ hstep ih => exact hclosed _ ih hstep

/-- What a search adds to the visited nodes. -/
structure Explores (successors : Node → List Node) (roots visited found : List Node) : Prop where
  keeps : visited ⊆ found
  roots_found : roots ⊆ found
  closed : ∀ node ∈ found, node ∉ visited → successors node ⊆ found
  sound : ∀ node ∈ found, node ∈ visited ∨ ∃ root ∈ roots, Leads successors root node

theorem explores_of_mem {visited : List Node} {node : Node} (hnode : node ∈ visited) :
    Explores successors [node] visited visited :=
  ⟨List.Subset.refl _, List.cons_subset.mpr ⟨hnode, List.nil_subset _⟩,
    fun _ hfound hnew => absurd hfound hnew, fun _ hfound => .inl hfound⟩

variable [DecidableEq Node]

def unvisited (nodes visited : List Node) : List Node := nodes.filter (· ∉ visited)

theorem length_unvisited_le {nodes visited more : List Node} (hmore : visited ⊆ more) :
    (unvisited nodes more).length ≤ (unvisited nodes visited).length := by
  refine (List.monotone_filter_right nodes fun node hnode => ?_).length_le
  simp only [decide_eq_true_eq] at hnode ⊢
  exact fun hvisited => hnode (hmore hvisited)

theorem length_unvisited_cons_lt {nodes visited : List Node} {node : Node} (hnode : node ∈ nodes)
    (hnew : node ∉ visited) :
    (unvisited nodes (node :: visited)).length < (unvisited nodes visited).length := by
  have hfilter : unvisited nodes (node :: visited) =
      (unvisited nodes visited).filter (· ≠ node) := by
    simp only [unvisited, List.filter_filter]
    refine List.filter_congr fun other _ => ?_
    simp [not_or]
  rw [hfilter, List.length_filter_lt_length_iff_exists]
  exact ⟨node, List.mem_filter.mpr ⟨hnode, by simpa using hnew⟩, by simp⟩

/-- Searches one after another explore what all of them start from. -/
theorem explores_foldl {search : List Node → Node → List Node} {nodes : List Node}
    {allowance : Nat}
    (hsearch : ∀ visited root, root ∈ nodes → (unvisited nodes visited).length ≤ allowance →
      Explores successors [root] visited (search visited root))
    {roots visited : List Node} (hroots : roots ⊆ nodes)
    (hallowance : (unvisited nodes visited).length ≤ allowance) :
    Explores successors roots visited (roots.foldl search visited) := by
  induction roots generalizing visited with
  | nil =>
      exact ⟨List.Subset.refl _, List.nil_subset _, fun node hfound hnew => absurd hfound hnew,
        fun node hfound => .inl hfound⟩
  | cons root roots ih =>
      have hfirst := hsearch visited root (hroots (List.mem_cons_self ..)) hallowance
      have hrest := ih (fun node hnode => hroots (List.mem_cons_of_mem _ hnode))
        (Nat.le_trans (length_unvisited_le hfirst.keeps) hallowance)
      rw [List.foldl_cons]
      refine ⟨fun node hnode => hrest.keeps (hfirst.keeps hnode), ?_, fun node hfound hnew => ?_,
        fun node hfound => ?_⟩
      · exact List.cons_subset.mpr
          ⟨hrest.keeps (hfirst.roots_found (List.mem_singleton_self _)), hrest.roots_found⟩
      · by_cases hearly : node ∈ search visited root
        · exact fun next hnext => hrest.keeps (hfirst.closed node hearly hnew hnext)
        · exact hrest.closed node hfound hearly
      · rcases hrest.sound node hfound with hearly | ⟨other, hother, hleads⟩
        · refine (hfirst.sound node hearly).imp_right fun ⟨other, hother, hleads⟩ => ?_
          rw [List.mem_singleton.mp hother] at hleads
          exact ⟨root, List.mem_cons_self .., hleads⟩
        · exact .inr ⟨other, List.mem_cons_of_mem _ hother, hleads⟩

/-- A visit explores its node if it may go as deep as there are unvisited nodes. -/
theorem explores_visit {nodes : List Node} (hnodes : ∀ node ∈ nodes, successors node ⊆ nodes)
    (allowance : Nat) (visited : List Node) (node : Node) (hnode : node ∈ nodes)
    (hallowance : (unvisited nodes visited).length ≤ allowance) :
    Explores successors [node] visited (visit successors allowance visited node) := by
  induction allowance generalizing visited node with
  | zero =>
      refine explores_of_mem ?_
      by_contra hnew
      have hless := length_unvisited_cons_lt hnode hnew
      omega
  | succ allowance ih =>
      rw [visit]
      split
      · rename_i hold
        exact explores_of_mem hold
      · rename_i hnew
        have hless := length_unvisited_cons_lt hnode hnew
        have hroom : (unvisited nodes (node :: visited)).length ≤ allowance := by omega
        have hfold := explores_foldl ih (hnodes node hnode) hroom
        have hself : node ∈ (successors node).foldl (visit successors allowance)
            (node :: visited) := hfold.keeps (List.mem_cons_self ..)
        refine ⟨fun other hother => hfold.keeps (List.mem_cons_of_mem _ hother),
          List.cons_subset.mpr ⟨hself, List.nil_subset _⟩, fun other hfound hother => ?_,
          fun other hfound => ?_⟩
        · by_cases hsame : other = node
          · subst hsame
            exact hfold.roots_found
          · exact hfold.closed other hfound (by simp [hsame, hother])
        · rcases hfold.sound other hfound with hold | ⟨next, hnext, hleads⟩
          · rcases List.mem_cons.mp hold with rfl | hold
            · exact .inr ⟨other, List.mem_singleton_self _, .refl⟩
            · exact .inl hold
          · exact .inr ⟨node, List.mem_singleton_self _, .head hnext hleads⟩

/-- A search finds exactly the nodes that its roots lead to. -/
theorem mem_reachable_iff {nodes roots : List Node} {allowance : Nat}
    (hnodes : ∀ node ∈ nodes, successors node ⊆ nodes) (hroots : roots ⊆ nodes)
    (hallowance : nodes.length ≤ allowance) (node : Node) :
    node ∈ reachable successors allowance roots ↔
      ∃ root ∈ roots, Leads successors root node := by
  have hexplores : Explores successors roots [] (roots.foldl (visit successors allowance) []) :=
    explores_foldl (explores_visit hnodes allowance) hroots
      (Nat.le_trans (List.length_filter_le _ _) hallowance)
  rw [reachable, List.mem_reverse]
  constructor
  · intro hfound
    exact (hexplores.sound node hfound).resolve_left (by simp)
  · rintro ⟨root, hroot, hleads⟩
    exact hleads.mem_of_closed (fun other hother => hexplores.closed other hother (by simp))
      (hexplores.roots_found hroot)

/-! ## Working off a stack -/

section Sweeps

variable {Reason : Type} {test : Node → Option Reason}

/--
Nodes are taken from a stack, and the successors of each new one are put on it,
until there is a reason to stop at a node or no node is left.
-/
inductive Sweeps (successors : Node → List Node) (test : Node → Option Reason) :
    List Node → List Node → Option Reason → Prop where
  | done (visited : List Node) : Sweeps successors test visited [] none
  | old {visited stack : List Node} {node : Node} {outcome : Option Reason}
      (hold : node ∈ visited) (hrest : Sweeps successors test visited stack outcome) :
      Sweeps successors test visited (node :: stack) outcome
  | stop {visited : List Node} (stack : List Node) {node : Node} {reason : Reason}
      (hnew : node ∉ visited) (htest : test node = some reason) :
      Sweeps successors test visited (node :: stack) (some reason)
  | go {visited stack : List Node} {node : Node} {outcome : Option Reason}
      (hnew : node ∉ visited) (htest : test node = none)
      (hrest : Sweeps successors test (node :: visited) (successors node ++ stack) outcome) :
      Sweeps successors test visited (node :: stack) outcome

omit [DecidableEq Node] in
/-- A stack is worked off in one way only. -/
theorem Sweeps.unique {visited stack : List Node} {outcome other : Option Reason}
    (hfirst : Sweeps successors test visited stack outcome)
    (hsecond : Sweeps successors test visited stack other) : outcome = other := by
  induction hfirst with
  | done =>
      cases hsecond
      rfl
  | old hold _ ih =>
      cases hsecond with
      | old _ hrest => exact ih hrest
      | stop _ hnew => exact absurd hold hnew
      | go hnew => exact absurd hold hnew
  | stop _ hnew htest =>
      cases hsecond with
      | old hold => exact absurd hold hnew
      | stop _ _ hother => exact htest.symm.trans hother
      | go _ hother => cases htest.symm.trans hother
  | go hnew htest _ ih =>
      cases hsecond with
      | old hold => exact absurd hold hnew
      | stop _ _ hother => cases htest.symm.trans hother
      | go _ _ hrest => exact ih hrest

/--
Working off roots on top of a stack visits what a search adds, in its order, and
leaves the rest of the stack, unless there is a reason to stop on the way.
-/
def SweepsTo (successors : Node → List Node) (test : Node → Option Reason)
    (roots visited found : List Node) : Prop :=
  ∃ added, found = List.reverse added ++ visited ∧ ∀ stack outcome,
    Sweeps successors test found stack outcome →
      Sweeps successors test visited (roots ++ stack) ((added.findSome? test).or outcome)

omit [DecidableEq Node] in
theorem sweepsTo_of_mem {visited : List Node} {node : Node} (hold : node ∈ visited) :
    SweepsTo successors test [node] visited visited :=
  ⟨[], rfl, fun _ _ hrest => .old hold hrest⟩

omit [DecidableEq Node] in
/-- Searches one after another add what all of them add. -/
theorem SweepsTo.trans {roots more visited middle found : List Node}
    (hfirst : SweepsTo successors test roots visited middle)
    (hsecond : SweepsTo successors test more middle found) :
    SweepsTo successors test (roots ++ more) visited found := by
  obtain ⟨added, rfl, hroots⟩ := hfirst
  obtain ⟨others, rfl, hmore⟩ := hsecond
  refine ⟨added ++ others, by simp, fun stack outcome hrest => ?_⟩
  rw [List.findSome?_append, Option.or_assoc, List.append_assoc]
  exact hroots _ _ (hmore stack outcome hrest)

omit [DecidableEq Node] in
/-- A new node is visited before its successors are worked off. -/
theorem SweepsTo.visit {visited found : List Node} {node : Node} (hnew : node ∉ visited)
    (hbelow : SweepsTo successors test (successors node) (node :: visited) found) :
    SweepsTo successors test [node] visited found := by
  obtain ⟨added, rfl, hsweeps⟩ := hbelow
  refine ⟨node :: added, by simp, fun stack outcome hrest => ?_⟩
  rw [List.findSome?_cons]
  cases htest : test node with
  | some reason => exact .stop stack hnew htest
  | none => exact .go hnew htest (hsweeps stack outcome hrest)

/-- Searches one after another work off what all of them start from. -/
theorem sweepsTo_foldl {search : List Node → Node → List Node} {nodes : List Node}
    {allowance : Nat}
    (hsearch : ∀ visited root, (unvisited nodes visited).length < allowance →
      SweepsTo successors test [root] visited (search visited root))
    (roots : List Node) {visited : List Node}
    (hallowance : (unvisited nodes visited).length < allowance) :
    SweepsTo successors test roots visited (roots.foldl search visited) := by
  induction roots generalizing visited with
  | nil => exact ⟨[], rfl, fun _ _ hrest => hrest⟩
  | cons root roots ih =>
      have hfirst := hsearch visited root hallowance
      obtain ⟨added, heq, -⟩ := id hfirst
      have hkeeps : visited ⊆ search visited root := heq ▸ List.subset_append_right _ _
      exact hfirst.trans (ih (Nat.lt_of_le_of_lt (length_unvisited_le hkeeps) hallowance))

/-- A visit with a greater allowance than there are new nodes works a node off. -/
theorem sweepsTo_visit {nodes : List Node} (hleaf : ∀ node, node ∉ nodes → successors node = [])
    (allowance : Nat) (visited : List Node) (node : Node)
    (hallowance : (unvisited nodes visited).length < allowance) :
    SweepsTo successors test [node] visited (visit successors allowance visited node) := by
  induction allowance generalizing visited node with
  | zero => exact absurd hallowance (Nat.not_lt_zero _)
  | succ allowance ih =>
      rw [Graph.visit]
      split
      · rename_i hold
        exact sweepsTo_of_mem hold
      · rename_i hnew
        refine SweepsTo.visit hnew ?_
        by_cases hnode : node ∈ nodes
        · have hless := length_unvisited_cons_lt hnode hnew
          exact sweepsTo_foldl ih _ (by omega)
        · rw [hleaf node hnode]
          exact ⟨[], rfl, fun _ _ hrest => hrest⟩

/-- Working off the roots stops at the first node of the search where there is a reason to. -/
theorem sweeps_reachable {nodes : List Node}
    (hleaf : ∀ node, node ∉ nodes → successors node = []) {allowance : Nat}
    (hallowance : nodes.length < allowance) (roots : List Node) :
    Sweeps successors test [] roots ((reachable successors allowance roots).findSome? test) := by
  have hswept : SweepsTo successors test roots [] (roots.foldl (visit successors allowance) []) :=
    sweepsTo_foldl (sweepsTo_visit hleaf allowance) roots
      (Nat.lt_of_le_of_lt (List.length_filter_le _ nodes) hallowance)
  obtain ⟨added, hfound, hsweeps⟩ := hswept
  have hroots := hsweeps [] none (.done _)
  rw [List.append_nil, Option.or_none] at hroots
  rwa [reachable, hfound, List.append_nil, List.reverse_reverse]

end Sweeps

section Map

variable {Other : Type} [DecidableEq Other] {others : Other → List Other} {change : Node → Other}

theorem visit_map (hinjective : Function.Injective change)
    (hsuccessors : ∀ node, others (change node) = (successors node).map change) (allowance : Nat)
    (visited : List Node) (node : Node) :
    visit others allowance (visited.map change) (change node) =
      (visit successors allowance visited node).map change := by
  induction allowance generalizing visited node with
  | zero => rfl
  | succ allowance ih =>
      rw [visit, visit]
      by_cases hold : node ∈ visited
      · rw [if_pos hold, if_pos (List.mem_map_of_mem hold)]
      · have hnew : change node ∉ visited.map change :=
          fun hmem => hold ((List.mem_map_of_injective hinjective).mp hmem)
        rw [if_neg hold, if_neg hnew, hsuccessors, List.foldl_map, ← List.map_cons]
        exact List.foldl_hom (List.map change) fun visited node => ih visited node

theorem reachable_map (hinjective : Function.Injective change)
    (hsuccessors : ∀ node, others (change node) = (successors node).map change) (allowance : Nat)
    (roots : List Node) :
    reachable others allowance (roots.map change) =
      (reachable successors allowance roots).map change := by
  have hvisits (visited : List Node) :
      roots.foldl (fun visited node => visit others allowance visited (change node))
        (visited.map change) = (roots.foldl (visit successors allowance) visited).map change :=
    List.foldl_hom (List.map change)
      fun visited node => visit_map hinjective hsuccessors allowance visited node
  rw [reachable, reachable, List.foldl_map, List.map_reverse]
  exact congrArg List.reverse (hvisits [])

end Map

end SpeechGrammar.Graph
