/-!
# Finite sets as increasing lists

A finite set is kept as the strictly increasing list of its members, so two
sets with the same members are equal and listing a set always gives the same
order.  Tag sets, vocabularies and sets of final states are of this kind.  As sets
with the same members are equal, unions may be regrouped, reordered and freed
from repetitions, and adding a list of values is a union too.
-/

namespace SpeechGrammar

/-- A finite set, given by its members in strictly increasing order. -/
structure SortedSet (α : Type) [Ord α] where
  toList : List α
  increasing : toList.Pairwise fun first second => compare first second = .lt

namespace SortedSet

variable {α : Type} [Ord α]

instance [DecidableEq α] : DecidableEq (SortedSet α) := fun left right =>
  decidable_of_iff (left.toList = right.toList)
    ⟨fun equal => by cases left; cases right; cases equal; rfl, fun equal => by rw [equal]⟩

def empty : SortedSet α := ⟨[], List.Pairwise.nil⟩

instance : EmptyCollection (SortedSet α) := ⟨empty⟩

instance : Inhabited (SortedSet α) := ⟨empty⟩

def singleton (member : α) : SortedSet α := ⟨[member], List.pairwise_singleton _ _⟩

instance : Membership α (SortedSet α) := ⟨fun set member => member ∈ set.toList⟩

instance [DecidableEq α] (set : SortedSet α) (member : α) : Decidable (member ∈ set) :=
  inferInstanceAs (Decidable (member ∈ set.toList))

def contains [BEq α] (set : SortedSet α) (member : α) : Bool := set.toList.contains member

def isEmpty (set : SortedSet α) : Bool := set.toList.isEmpty

def size (set : SortedSet α) : Nat := set.toList.length

theorem mem_toList {set : SortedSet α} {member : α} : member ∈ set.toList ↔ member ∈ set :=
  Iff.rfl

theorem not_mem_empty (member : α) : ¬ member ∈ (empty : SortedSet α) := by
  intro h
  cases h

/-- Put a value at its place in an increasing list that may already hold it. -/
def place (member : α) : List α → List α
  | [] => [member]
  | head :: tail =>
      match compare member head with
      | .lt => member :: head :: tail
      | .eq => head :: tail
      | .gt => head :: place member tail

/-- Placing a value adds nothing else. -/
theorem eq_or_mem_of_mem_place {member other : α} {list : List α}
    (h : other ∈ place member list) : other = member ∨ other ∈ list := by
  induction list with
  | nil => simpa [place] using h
  | cons head tail ih =>
      rw [place] at h
      split at h
      · simpa using h
      · exact .inr h
      · rcases List.mem_cons.1 h with rfl | inTail
        · exact .inr (List.mem_cons_self ..)
        · exact (ih inTail).imp id (List.mem_cons_of_mem _)

/-- Placing a value keeps the values already there. -/
theorem mem_place_of_mem {member other : α} {list : List α} (h : other ∈ list) :
    other ∈ place member list := by
  induction list with
  | nil => simp at h
  | cons head tail ih =>
      rw [place]
      split
      · exact List.mem_cons_of_mem _ h
      · exact h
      · rcases List.mem_cons.1 h with rfl | inTail
        · exact List.mem_cons_self ..
        · exact List.mem_cons_of_mem _ (ih inTail)

/-- A placed value is there afterwards. -/
theorem mem_place_self [Std.LawfulEqOrd α] (member : α) (list : List α) :
    member ∈ place member list := by
  induction list with
  | nil => simp [place]
  | cons head tail ih =>
      rw [place]
      split
      · exact List.mem_cons_self ..
      · rename_i same
        exact Std.LawfulEqOrd.eq_of_compare same ▸ List.mem_cons_self ..
      · exact List.mem_cons_of_mem _ ih

theorem increasing_place [Std.TransOrd α] {member : α} {list : List α}
    (h : list.Pairwise fun first second => compare first second = .lt) :
    (place member list).Pairwise fun first second => compare first second = .lt := by
  induction list with
  | nil => exact List.pairwise_singleton _ _
  | cons head tail ih =>
      obtain ⟨below, rest⟩ := List.pairwise_cons.1 h
      rw [place]
      split
      · rename_i less
        refine List.pairwise_cons.2 ⟨fun other inList => ?_, h⟩
        rcases List.mem_cons.1 inList with rfl | inTail
        · exact less
        · exact Std.TransCmp.lt_trans less (below other inTail)
      · exact h
      · rename_i greater
        refine List.pairwise_cons.2 ⟨fun other inPlaced => ?_, ih rest⟩
        rcases eq_or_mem_of_mem_place inPlaced with rfl | inTail
        · exact Std.OrientedCmp.lt_of_gt greater
        · exact below other inTail

variable [Std.TransOrd α]

def insert (set : SortedSet α) (member : α) : SortedSet α :=
  ⟨place member set.toList, increasing_place set.increasing⟩

def insertAll (set : SortedSet α) (values : List α) : SortedSet α :=
  values.foldl insert set

def union (left right : SortedSet α) : SortedSet α := left.insertAll right.toList

instance : Union (SortedSet α) := ⟨union⟩

def ofList (values : List α) : SortedSet α := empty.insertAll values

/-- Inserting adds exactly the inserted value. -/
theorem mem_insert [Std.LawfulEqOrd α] {set : SortedSet α} {member other : α} :
    other ∈ set.insert member ↔ other = member ∨ other ∈ set := by
  constructor
  · exact eq_or_mem_of_mem_place
  · rintro (rfl | h)
    · exact mem_place_self _ _
    · exact mem_place_of_mem h

theorem mem_insertAll [Std.LawfulEqOrd α] {set : SortedSet α} {values : List α} {other : α} :
    other ∈ set.insertAll values ↔ other ∈ set ∨ other ∈ values := by
  induction values generalizing set with
  | nil => simp [insertAll]
  | cons head tail ih =>
      have step : set.insertAll (head :: tail) = (set.insert head).insertAll tail := rfl
      rw [step, ih, mem_insert, List.mem_cons]
      constructor
      · rintro ((rfl | h) | h)
        · exact .inr (.inl rfl)
        · exact .inl h
        · exact .inr (.inr h)
      · rintro (h | rfl | h)
        · exact .inl (.inr h)
        · exact .inl (.inl rfl)
        · exact .inr h

theorem mem_union [Std.LawfulEqOrd α] {left right : SortedSet α} {other : α} :
    other ∈ left.union right ↔ other ∈ left ∨ other ∈ right :=
  mem_insertAll

theorem mem_ofList [Std.LawfulEqOrd α] {values : List α} {other : α} :
    other ∈ ofList values ↔ other ∈ values := by
  rw [ofList, mem_insertAll]
  simp [not_mem_empty]

/-- Two increasing lists with the same values are the same list. -/
theorem eq_of_mem_iff {left right : List α}
    (hleft : left.Pairwise fun first second => compare first second = .lt)
    (hright : right.Pairwise fun first second => compare first second = .lt)
    (same : ∀ member, member ∈ left ↔ member ∈ right) : left = right := by
  have irrefl : ∀ member : α, compare member member ≠ .lt := fun member less => by
    simp [Std.ReflCmp.compare_self] at less
  induction left generalizing right with
  | nil =>
      cases right with
      | nil => rfl
      | cons head tail => exact absurd ((same head).2 (List.mem_cons_self ..)) (by simp)
  | cons head tail ih =>
      cases right with
      | nil => exact absurd ((same head).1 (List.mem_cons_self ..)) (by simp)
      | cons other rest =>
          obtain ⟨belowLeft, tailLeft⟩ := List.pairwise_cons.1 hleft
          obtain ⟨belowRight, tailRight⟩ := List.pairwise_cons.1 hright
          have heads : head = other := by
            rcases List.mem_cons.1 ((same head).1 (List.mem_cons_self ..)) with eq | inRest
            · exact eq
            · rcases List.mem_cons.1 ((same other).2 (List.mem_cons_self ..)) with eq | inTail
              · exact eq.symm
              · exact absurd
                  (Std.TransCmp.lt_trans (belowLeft other inTail) (belowRight head inRest))
                  (irrefl head)
          subst heads
          refine congrArg (head :: ·) (ih tailLeft tailRight fun member => ?_)
          refine ⟨fun h => ?_, fun h => ?_⟩
          · rcases List.mem_cons.1 ((same member).1 (List.mem_cons_of_mem _ h)) with rfl | inRest
            · exact absurd (belowLeft member h) (irrefl member)
            · exact inRest
          · rcases List.mem_cons.1 ((same member).2 (List.mem_cons_of_mem _ h)) with rfl | inTail
            · exact absurd (belowRight member h) (irrefl member)
            · exact inTail

/-- Sets with the same members are equal. -/
theorem ext {left right : SortedSet α} (same : ∀ member, member ∈ left ↔ member ∈ right) :
    left = right := by
  cases left
  cases right
  congr
  exact eq_of_mem_iff (by assumption) (by assumption) same

@[simp] theorem union_empty (set : SortedSet α) : set.union .empty = set := rfl

variable [Std.LawfulEqOrd α]

@[simp] theorem empty_union (set : SortedSet α) : SortedSet.empty.union set = set :=
  ext fun member => by simp [mem_union, not_mem_empty]

theorem union_assoc (first second third : SortedSet α) :
    (first.union second).union third = first.union (second.union third) :=
  ext fun member => by simp only [mem_union, or_assoc]

theorem union_comm (first second : SortedSet α) : first.union second = second.union first :=
  ext fun member => by rw [mem_union, mem_union, or_comm]

@[simp] theorem union_self (set : SortedSet α) : set.union set = set :=
  ext fun member => by rw [mem_union, or_self]

theorem insertAll_eq_union (set : SortedSet α) (values : List α) :
    set.insertAll values = set.union (ofList values) :=
  ext fun member => by rw [mem_insertAll, mem_union, mem_ofList]

theorem ofList_append (first second : List α) :
    ofList (first ++ second) = (ofList first).union (ofList second) :=
  ext fun member => by rw [mem_union, mem_ofList, mem_ofList, mem_ofList, List.mem_append]

instance : Std.Associative (union (α := α)) := ⟨union_assoc⟩

instance : Std.Commutative (union (α := α)) := ⟨union_comm⟩

instance : Std.IdempotentOp (union (α := α)) := ⟨union_self⟩

end SortedSet

end SpeechGrammar
