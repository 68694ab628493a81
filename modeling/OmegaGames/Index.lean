/-!
# Indices

Nodes, states and labels are numbered by machine words. The largest word is set aside to mark
absence, so it is no index.
-/
namespace OmegaGames

/-- The number of indices: every word but the largest. -/
def indexCount : Nat := Nat.pow 2 64 - 1

structure Index where
  val : Nat
  isLt : val < indexCount
deriving DecidableEq

namespace Index

def ofNat? (n : Nat) : Option Index :=
  if h : n < indexCount then some ⟨n, h⟩ else none

def text (i : Index) : String := i.val.repr

/-- The text of a node's index with its kind, as `NodeId(0)`. -/
def nodeText (i : Index) : String := "NodeId(" ++ i.val.repr ++ ")"

@[simp] theorem ofNat?_val (i : Index) : ofNat? i.val = some i := by simp [ofNat?, i.isLt]

theorem ofNat?_eq_none_iff (n : Nat) : ofNat? n = none ↔ indexCount ≤ n := by
  unfold ofNat?
  split <;> simp <;> omega

end Index

end OmegaGames
