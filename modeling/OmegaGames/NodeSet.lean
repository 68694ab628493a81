/-!
# Sets of nodes

A set of nodes of one game, held as one bit for each node of a fixed universe `0, …, n - 1`. The
view of a set is membership `v ∈ s`; every operation has a lemma that says what it does to the view.
Two sets are equal only if their universes are.
-/
namespace OmegaGames

structure NodeSet where
  bits : Array Bool
deriving DecidableEq, Repr, Inhabited

namespace NodeSet

def ofPred (n : Nat) (p : Nat → Bool) : NodeSet := ⟨Array.ofFn fun i : Fin n => p i⟩

def empty (n : Nat) : NodeSet := ⟨Array.replicate n false⟩

def full (n : Nat) : NodeSet := ⟨Array.replicate n true⟩

def range (s : NodeSet) : Nat := s.bits.size

/-- Nodes outside of the universe belong to no set. -/
def contains (s : NodeSet) (v : Nat) : Bool := s.bits.getD v false

instance : Membership Nat NodeSet := ⟨fun s v => s.contains v = true⟩

instance (v : Nat) (s : NodeSet) : Decidable (v ∈ s) := inferInstanceAs (Decidable (s.contains v = true))

/-- A node outside of the universe is not added. -/
def insert (s : NodeSet) (v : Nat) : NodeSet := ⟨s.bits.setIfInBounds v true⟩

def erase (s : NodeSet) (v : Nat) : NodeSet := ⟨s.bits.setIfInBounds v false⟩

def toList (s : NodeSet) : List Nat := (List.range s.range).filter s.contains

def size (s : NodeSet) : Nat := s.toList.length

def isEmpty (s : NodeSet) : Bool := s.toList.isEmpty

def filter (s : NodeSet) (p : Nat → Bool) : NodeSet := ofPred s.range fun v => s.contains v && p v

def inter (s t : NodeSet) : NodeSet := s.filter t.contains

def diff (s t : NodeSet) : NodeSet := s.filter fun v => !t.contains v

def union (s t : NodeSet) : NodeSet := ofPred s.range fun v => s.contains v || t.contains v

def ofList (n : Nat) (vs : List Nat) : NodeSet := vs.foldl insert (empty n)

def isSubset (s t : NodeSet) : Bool := s.toList.all t.contains

def isDisjoint (s t : NodeSet) : Bool := s.toList.all fun v => !t.contains v

def within (s : NodeSet) (n : Nat) : Bool := s.toList.all (· < n)

@[simp] theorem mem_iff (v : Nat) (s : NodeSet) : v ∈ s ↔ s.contains v = true := Iff.rfl

@[simp] theorem range_ofPred (n : Nat) (p : Nat → Bool) : (ofPred n p).range = n := by
  simp [ofPred, range]

@[simp] theorem contains_ofPred (n : Nat) (p : Nat → Bool) (v : Nat) :
    (ofPred n p).contains v = (decide (v < n) && p v) := by
  by_cases h : v < n <;> simp [ofPred, contains, Array.getD, h]

@[simp] theorem range_empty (n : Nat) : (empty n).range = n := by simp [empty, range]

@[simp] theorem contains_empty (n v : Nat) : (empty n).contains v = false := by
  by_cases h : v < n <;> simp [empty, contains, Array.getD, h]

@[simp] theorem range_full (n : Nat) : (full n).range = n := by simp [full, range]

@[simp] theorem contains_full (n v : Nat) : (full n).contains v = decide (v < n) := by
  by_cases h : v < n <;> simp [full, contains, Array.getD, h]

@[simp] theorem range_insert (s : NodeSet) (v : Nat) : (s.insert v).range = s.range := by
  simp [insert, range]

@[simp] theorem range_erase (s : NodeSet) (v : Nat) : (s.erase v).range = s.range := by
  simp [erase, range]

theorem contains_lt {s : NodeSet} {v : Nat} (h : s.contains v = true) : v < s.range := by
  unfold contains Array.getD at h
  split at h
  · assumption
  · simp at h

@[simp] theorem contains_insert (s : NodeSet) (u v : Nat) :
    (s.insert u).contains v = (s.contains v || (decide (u = v) && decide (v < s.range))) := by
  by_cases h : v < s.bits.size
  · by_cases hu : u = v
    · subst hu; simp [insert, contains, range, Array.getD, h]
    · simp [insert, contains, range, Array.getD, h, hu]
  · simp [insert, contains, range, Array.getD, h]

@[simp] theorem range_filter (s : NodeSet) (p : Nat → Bool) : (s.filter p).range = s.range := by
  simp [filter]

@[simp] theorem contains_filter (s : NodeSet) (p : Nat → Bool) (v : Nat) :
    (s.filter p).contains v = (s.contains v && p v) := by
  simp only [filter, contains_ofPred]
  by_cases h : v < s.range
  · simp [h]
  · have : s.contains v = false := by
      cases hc : s.contains v
      · rfl
      · exact absurd (contains_lt hc) h
    simp [h, this]

@[simp] theorem range_diff (s t : NodeSet) : (s.diff t).range = s.range := by simp [diff]

@[simp] theorem contains_diff (s t : NodeSet) (v : Nat) :
    (s.diff t).contains v = (s.contains v && !t.contains v) := by simp [diff]

@[simp] theorem range_union (s t : NodeSet) : (s.union t).range = s.range := by simp [union]

@[simp] theorem contains_union (s t : NodeSet) (v : Nat) :
    (s.union t).contains v = (decide (v < s.range) && (s.contains v || t.contains v)) := by
  simp [union]

@[simp] theorem mem_toList (s : NodeSet) (v : Nat) : v ∈ s.toList ↔ s.contains v = true := by
  simp only [toList, List.mem_filter, List.mem_range]
  exact ⟨And.right, fun h => ⟨contains_lt h, h⟩⟩

/-! ## Checked operations

These are the operations on one node for a caller who does not know that the node is in the universe:
`none` says that it is not. -/

def insert? (s : NodeSet) (v : Nat) : Option (NodeSet × Bool) :=
  if v < s.range then some (s.insert v, !s.contains v) else none

def erase? (s : NodeSet) (v : Nat) : Option (NodeSet × Bool) :=
  if v < s.range then some (s.erase v, s.contains v) else none

/-- A universe has fewer nodes than this, so that the number of its bits fits into a word of which
three bits are taken. -/
def rangeLimit : Nat := Nat.pow 2 61

def empty? (n : Nat) : Option NodeSet := if n < rangeLimit then some (empty n) else none

def full? (n : Nat) : Option NodeSet := if n < rangeLimit then some (full n) else none

def ofList? (n : Nat) (vs : List Nat) : Option NodeSet :=
  if n < rangeLimit && vs.all (· < n) then some (ofList n vs) else none

/-- Adds the members of `t`, and tells whether all of them are in the universe of `s`. -/
def absorb (s t : NodeSet) : NodeSet × Bool := (s.union t, t.within s.range)

/-- Removes the members of `t`, and tells whether all of them are in the universe of `s`. -/
def discard (s t : NodeSet) : NodeSet × Bool := (s.diff t, t.within s.range)

/-- The set in braces, as `{0, 3}`. -/
def text (s : NodeSet) : String :=
  "\x7b" ++ String.intercalate ", " (s.toList.map Nat.repr) ++ "\x7d"

end NodeSet

end OmegaGames
