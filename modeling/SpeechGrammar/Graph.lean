/-!
# Depth-first search

A graph is given by the list of successors of each node.  A search visits a
node and then, in order, whatever its successors lead to, each node once.

Nodes that lead to each other make up a strongly connected component.  One
search finds all components (Tarjan): nodes are numbered as they are met and
put on a stack, and a visit finds the least number on the stack that it refers
back to.  If that is the number of the node it began with, what lies on the
stack down to this node is a component.  A node lies on a cycle if it is not
alone in its component or refers to itself.
-/

namespace SpeechGrammar.Graph

variable {Node : Type} [DecidableEq Node]

/--
Visit a node and everything it leads to, ahead of the nodes already visited,
latest first.  The allowance bounds how long the path from the first node is;
a path through new nodes only is no longer than there are nodes.
-/
def visit (successors : Node → List Node) : Nat → List Node → Node → List Node
  | 0, visited, _ => visited
  | allowance + 1, visited, node =>
      if node ∈ visited then
        visited
      else
        (successors node).foldl (visit successors allowance) (node :: visited)

/-- The nodes that some roots lead to, roots included, in the order of the search. -/
def reachable (successors : Node → List Node) (allowance : Nat) (roots : List Node) : List Node :=
  (roots.foldl (visit successors allowance) []).reverse

/-- What a search for components knows so far. -/
structure Survey (Node : Type) where
  /-- The nodes that have been met, in order. -/
  met : List Node := []
  /-- The nodes that have been met whose components are not complete, latest first. -/
  stack : List Node := []
  /-- The nodes on cycles in the components that are complete. -/
  cyclic : List Node := []

namespace Survey

def number (survey : Survey Node) (node : Node) : Nat := survey.met.idxOf node

def enter (survey : Survey Node) (node : Node) : Survey Node :=
  { survey with met := survey.met ++ [node], stack := node :: survey.stack }

/-- Take a component off the stack, down to the node that its visit began with. -/
def complete (successors : Node → List Node) (survey : Survey Node) (node : Node) : Survey Node :=
  let component := survey.stack.takeWhile (· ≠ node) ++ [node]
  { survey with
    stack := (survey.stack.dropWhile (· ≠ node)).tail
    cyclic :=
      if 1 < component.length ∨ node ∈ successors node then component ++ survey.cyclic
      else survey.cyclic }

/--
Follow a reference to a node, knowing the least number referred back to so far.
A node that is new is visited, and one on the stack is referred back to.
-/
def follow (visit : Survey Node → Node → Survey Node × Nat) (progress : Survey Node × Nat)
    (next : Node) : Survey Node × Nat :=
  let (survey, least) := progress
  if next ∈ survey.met then
    (survey, if next ∈ survey.stack then min least (survey.number next) else least)
  else
    let (survey, below) := visit survey next
    (survey, min least below)

/--
Visit a new node, and find the least number that is referred back to.  The
allowance bounds how long the path from the first node is.
-/
def visit (successors : Node → List Node) : Nat → Survey Node → Node → Survey Node × Nat
  | 0, survey, _ => (survey, survey.met.length)
  | allowance + 1, survey, node =>
      let number := survey.met.length
      let (survey, least) :=
        (successors node).foldl (follow (visit successors allowance)) (survey.enter node, number)
      (if least = number then survey.complete successors node else survey, least)

def visitNew (successors : Node → List Node) (allowance : Nat) (survey : Survey Node)
    (node : Node) : Survey Node :=
  if node ∈ survey.met then survey else (visit successors allowance survey node).1

end Survey

def cyclic (successors : Node → List Node) (allowance : Nat) (roots : List Node) : List Node :=
  (roots.foldl (Survey.visitNew successors allowance) {}).cyclic

end SpeechGrammar.Graph
