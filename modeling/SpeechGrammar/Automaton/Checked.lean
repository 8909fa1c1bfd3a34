import SpeechGrammar.Automaton.Closure
import SpeechGrammar.Automaton.Score

/-!
# Looking states up in tables

Scoring and closing look states up in tables that have a row for each state: of
the transitions that leave it, of the states before and behind it, and of its
label.  Here they are told so as to fail where a row is missing.
-/

namespace SpeechGrammar.Automaton.Checked

variable {P W α : Type}

/-- Put a value at the end of the row with a number, if the table has that row. -/
def push (table : Array (List α)) (entry : Nat × α) : Option (Array (List α)) := do
  let row ← table[entry.1]?
  return table.setIfInBounds entry.1 (row ++ [entry.2])

/-- The table with a number of rows that values belong in, each with the number of its row. -/
def tabulate (count : Nat) (entries : List (Nat × α)) : Option (Array (List α)) :=
  entries.foldlM push (Array.replicate count [])

def arcs (automaton : Automaton P W) : Option (Array (List (Transition W))) :=
  tabulate automaton.stateCount (automaton.transitions.map fun step => (step.source, step))

def visit (table : Array (List Nat)) : Nat → List Nat → Nat → Option (List Nat)
  | 0, visited, _ => some visited
  | allowance + 1, visited, node =>
      if node ∈ visited then
        some visited
      else do
        let row ← table[node]?
        row.foldlM (visit table allowance) (node :: visited)

def reachable (table : Array (List Nat)) (allowance : Nat) (roots : List Nat) :
    Option (List Nat) := do
  let visited ← roots.foldlM (visit table allowance) []
  return visited.reverse

def prune (automaton : Automaton P W) : Option (Automaton P W) := do
  let forward ← tabulate automaton.stateCount
    (automaton.transitions.map fun step => (step.source, step.target))
  let backward ← tabulate automaton.stateCount
    (automaton.transitions.map fun step => (step.target, step.source))
  let ahead ← reachable forward (automaton.stateCount + 1) [automaton.start]
  let back ← reachable backward (automaton.stateCount + 1) automaton.finals.toList
  let kept := (List.range automaton.stateCount).filter fun state =>
    state == automaton.start || (ahead.contains state && back.contains state)
  let start ← kept.idxOf? automaton.start
  return { automaton with
    stateCount := kept.length
    start
    finals := SortedSet.ofList (automaton.finals.toList.filterMap kept.idxOf?)
    transitions := automaton.transitions.filterMap (renumber? kept) }

variable [LogWeight W]

/-- Settle candidates, best first, by a table of the transitions that leave each state. -/
def settle (table : Array (List (Transition W))) :
    Nat → List (Reached W) → List (Reached W) → Option (List (Reached W))
  | 0, settled, _ => some settled
  | allowance + 1, settled, pending =>
      match best? pending with
      | none => some settled
      | some found => do
          let row ← table[found.state]?
          let settled := settled ++ [found]
          let fresh := ((row.filter (·.isEpsilon)).map (Reached.extend found)).filter
            fun candidate => !isSettled settled candidate.state
          settle table allowance settled (pending.filter (·.state != found.state) ++ fresh)

def epsilonClosure (automaton : Automaton P W) (table : Array (List (Transition W)))
    (state : Nat) : Option (List (Reached W)) :=
  settle table automaton.stateCount [] [⟨state, 0, .empty⟩]

def bypassesOf (table : Array (List (Transition W))) (state : Nat) (reached : Reached W) :
    Option (List (Transition W)) := do
  let row ← table[reached.state]?
  return (row.filter (!·.isEpsilon)).map (bypass state reached)

def bypasses (automaton : Automaton P W) (table : Array (List (Transition W))) (state : Nat) :
    Option (List (Transition W)) := do
  let closure ← epsilonClosure automaton table state
  let read ← closure.mapM (bypassesOf table state)
  return read.flatten.foldl (fun kept transition => addBest transition kept) []

def leadsToFinal (automaton : Automaton P W) (table : Array (List (Transition W)))
    (state : Nat) : Option (Nat × Bool) := do
  let closure ← epsilonClosure automaton table state
  return (state, closure.any fun reached => automaton.isFinal reached.state)

def withoutEpsilons (automaton : Automaton P W) : Option (Automaton P W) := do
  let table ← arcs automaton
  let ends ← (List.range automaton.stateCount).mapM (leadsToFinal automaton table)
  let read ← (List.range automaton.stateCount).mapM (bypasses automaton table)
  return { automaton with
    finals := SortedSet.ofList ((ends.filter (·.2)).map (·.1))
    transitions := read.flatten }

def close (automaton : Automaton P W) : Option (Automaton P W) := do
  let wordy ← withoutEpsilons automaton
  prune wordy

/-- Reach a state, whose row is looked up next, with a weight. -/
def improve (table : Array (List (Transition W))) (labels : Labels W) (state : Nat)
    (weight : W) : Option (Labels W) := do
  let _ ← table[state]?
  return labels.improve state weight

def followEpsilon (table : Array (List (Transition W))) (given labels : Labels W)
    (transition : Transition W) : Option (Labels W) :=
  match transition.word?, labels.weight? transition.source with
  | none, some weight =>
      if isOpen given labels transition.source then
        improve table labels transition.target (weight + transition.weight)
      else
        some labels
  | _, _ => some labels

def settleLabels (automaton : Automaton P W) (table : Array (List (Transition W)))
    (given : Labels W) : Nat → Labels W → Option (Labels W)
  | 0, labels => some labels
  | rounds + 1, labels =>
      if automaton.transitions.any (improvesAlong given labels) then do
        let next ← automaton.transitions.foldlM (followEpsilon table given) labels
        settleLabels automaton table given rounds next
      else
        some labels

def spread (automaton : Automaton P W) (table : Array (List (Transition W)))
    (given : Labels W) : Option (Labels W) :=
  settleLabels automaton table given (roundsFor automaton.stateCount) given

def followWord (table : Array (List (Transition W))) (token : String) (given labels : Labels W)
    (transition : Transition W) : Option (Labels W) :=
  match given.weight? transition.source with
  | some weight =>
      if transition.word? = some token then
        improve table labels transition.target (weight + transition.weight)
      else
        some labels
  | none => some labels

def step (automaton : Automaton P W) (table : Array (List (Transition W)))
    (labels : Labels W) (token : String) : Option (Labels W) := do
  let next ← automaton.transitions.foldlM (followWord table token labels) automaton.noLabels
  spread automaton table next

def startLabels (automaton : Automaton P W) (table : Array (List (Transition W))) :
    Option (Labels W) := do
  let _ ← table[automaton.start]?
  spread automaton table (automaton.noLabels.setIfInBounds automaton.start (some 0))

def score (automaton : Automaton P W) (tokens : List String) : Option (Option W) := do
  let table ← arcs automaton
  let start ← startLabels automaton table
  let labels ← tokens.foldlM (step automaton table) start
  return LogWeight.greatest?
    (((List.range automaton.stateCount).filter automaton.isFinal).filterMap labels.weight?)

end SpeechGrammar.Automaton.Checked
