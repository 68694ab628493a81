/-!
# Choosing among alternatives

The position of the best of several alternatives, where a later one is taken only if it is strictly
better than all before it.
-/
namespace OmegaGames

variable {α : Type}

/-- Goes on with the best alternative so far, its position and the number of the next one. -/
@[specialize] def bestFrom (better : α → α → Bool) (best : α) (position next : Nat) : List α → Nat
  | [] => position
  | x :: xs =>
    if better x best then bestFrom better x next (next + 1) xs
    else bestFrom better best position (next + 1) xs

@[specialize] def firstBest (better : α → α → Bool) : List α → Nat
  | [] => 0
  | x :: xs => bestFrom better x 0 1 xs

theorem bestFrom_lt (better : α → α → Bool) (best : α) (position next : Nat) (xs : List α)
    (h : position < next) : bestFrom better best position next xs < next + xs.length := by
  induction xs generalizing best position next with
  | nil => simpa [bestFrom] using h
  | cons x xs ih =>
    simp only [bestFrom, List.length_cons]
    split
    · have := ih x next (next + 1) (by omega); omega
    · have := ih best position (next + 1) (by omega); omega

/-- The chosen position is one of the alternatives. -/
theorem firstBest_lt (better : α → α → Bool) {xs : List α} (h : xs ≠ []) :
    firstBest better xs < xs.length := by
  cases xs with
  | nil => exact absurd rfl h
  | cons x xs =>
    have := bestFrom_lt better x 0 1 xs (by omega)
    simp only [firstBest, List.length_cons]
    omega

end OmegaGames
