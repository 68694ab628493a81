/-!
# Interning tables

Every distinct value gets the next free index when it is first entered, and keeps it.
-/
namespace OmegaGames

structure Interner (α : Type) where
  values : Array α := #[]

namespace Interner

variable {α : Type} [DecidableEq α]

def size (t : Interner α) : Nat := t.values.size

def find? (t : Interner α) (a : α) : Option Nat := t.values.idxOf? a

def get? (t : Interner α) (i : Nat) : Option α := t.values[i]?

/-- Enters a value; gives its index and whether it is new. -/
def intern (t : Interner α) (a : α) : Interner α × Nat × Bool :=
  match t.find? a with
  | some i => (t, i, false)
  | none => (⟨t.values.push a⟩, t.size, true)

end Interner

end OmegaGames
