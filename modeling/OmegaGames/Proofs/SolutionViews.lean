import OmegaGames.Proofs.Agreement
import OmegaGames.Proofs.Views

/-!
# Solutions under changes of the game

The regions of a game without chance stay the same where only edges are dropped that neither player has
decided for, and they change sides in the dual game. Every solver finds them.
-/
namespace OmegaGames

variable {W : Type} {g : Game W}

namespace Dominion

variable {x : Player} {σ : Strategy} {won : NodeSet}
  (h : Dominion g x σ (NodeSet.full g.size).toSet won.toSet)

include h

theorem exists_succ?_of_get {v i : Nat} (hv : v ∈ won) (ho : g.owner v = x) (hi : σ.get v = some i) :
    ∃ t, g.succ? v i = some t ∧ t ∈ won := by
  obtain ⟨j, t, hj, ht, htw⟩ := h.decided v hv ho
  obtain rfl : i = j := Option.some.inj (hi.symm.trans hj)
  exact ⟨t, ht, htw⟩

variable [Scalar W] (hg : g.Valid)

include hg

theorem mem_of_mem_succs {v t : Nat} (hv : v ∈ won) (ho : g.owner v ≠ x) (ht : t ∈ g.succs v) : t ∈ won :=
  h.closed v hv ho t ht (NodeSet.mem_full.mpr (hg.succ_lt ht))

theorem total : g.Total won := by
  intro v hv
  by_cases ho : g.owner v = x
  · obtain ⟨i, t, -, ht, htw⟩ := h.decided v hv ho
    exact ⟨t, g.mem_succs_of_succ? ht, htw⟩
  · have hlt : v < g.size := NodeSet.mem_full.mp (h.inside hv)
    obtain ⟨t, ht⟩ := List.exists_mem_of_ne_nil _ (hg.succs_ne_nil hlt)
    exact ⟨t, ht, h.mem_of_mem_succs hg hv ho ht⟩

end Dominion

theorem IsSolution.dual [Scalar W] (hg : g.Valid) {even odd : NodeSet} (h : IsSolution g even odd) :
    IsSolution g.dual odd even where
  range_even := h.range_odd.trans g.size_dual.symm
  range_odd := h.range_even.trans g.size_dual.symm
  covered v hv := by
    rw [Game.size_dual] at hv
    exact (h.covered v hv).symm
  held_even := h.held_odd.imp fun _ hτ => hτ.dual hg
  held_odd := h.held_even.imp fun _ hσ => hσ.dual hg

/-- Solutions survive where edges are dropped that neither player has decided for. -/
theorem IsSolution.restrict {positions : Nat → List Nat}
    (hpos : ∀ v < g.size, ∀ i ∈ positions v, i < g.degree v)
    (hno : ∀ v < g.size, g.owner v ≠ .stochastic) {even odd : NodeSet} (h : IsSolution g even odd)
    {σ τ : Strategy} (hσ : Dominion g .even σ (NodeSet.full g.size).toSet even.toSet)
    (hτ : Dominion g .odd τ (NodeSet.full g.size).toSet odd.toSet)
    (heven : ∀ v ∈ even, g.owner v = .even → ∀ i, σ.get v = some i → i ∈ positions v)
    (hodd : ∀ v ∈ odd, g.owner v = .odd → ∀ i, τ.get v = some i → i ∈ positions v) :
    IsSolution (g.restrict positions).game even odd := by
  have hchance : ∀ v < g.size, g.owner v = .stochastic → ∀ i < g.degree v, i ∈ positions v :=
    fun v hv hs => absurd hs (hno v hv)
  refine ⟨?_, ?_, fun v hv => ?_, ?_, ?_⟩
  · rw [Game.size_restrict, h.range_even]
  · rw [Game.size_restrict, h.range_odd]
  · rw [Game.size_restrict] at hv
    exact h.covered v hv
  · rw [Game.size_restrict]
    exact Game.exists_dominion_restrict hpos hchance hσ heven
  · rw [Game.size_restrict]
    exact Game.exists_dominion_restrict hpos hchance hτ hodd

/-- On a valid game without chance a solver finds the solution if it has room, and refuses it otherwise. -/
theorem QualitativeSolver.solve_solution_cases [Scalar W] (s : QualitativeSolver) (hg : g.Valid)
    (hno : ∀ v < g.size, g.owner v ≠ .stochastic) (hp : ∀ v < g.size, g.priority v < infinitePriority)
    (q : Query) (hq : q.strictEven = true ∨ ∀ v < g.size, g.priority v + 1 < infinitePriority) :
    (s.HasRoom g q → ∃ r, s.solve g q = .ok r ∧ IsSolution g r.even r.odd) ∧
      (¬ s.HasRoom g q → s.solve g q = .error .capacity) := by
  have hsol := Recursive.isSolution_regions hg hno ⟨true⟩ ⟨true, .none⟩
  cases s with
  | recursive settings => exact (TwoPlayerSolver.recursive settings).solve_cases hg hno q
  | lifting settings => exact (TwoPlayerSolver.lifting settings).solve_cases hg hno q
  | gadget inner =>
    have hsplit : ((QualitativeSolver.gadget inner).HasRoom g q → ∃ r, Gadget.solve inner g q = .ok r ∧
        IsAlmostSureSplit g q.strict (r.won q.strict) (r.won q.strict.opponent)) ∧
        (¬ (QualitativeSolver.gadget inner).HasRoom g q → Gadget.solve inner g q = .error .capacity) := by
      rcases hq with hq | hp
      · simp only [QualitativeSolver.HasRoom, Gadget.solve, Query.strict, hq, if_true]
        exact Gadget.solveStrict_cases inner hg hp q.request
      · exact Gadget.solve_cases inner hg hp q
    refine ⟨fun hroom => ?_, hsplit.2⟩
    obtain ⟨r, hr, hr'⟩ := hsplit.1 hroom
    obtain ⟨heven, hodd⟩ := hsol.eq_of_isAlmostSureSplit hg q.strict_ne_stochastic hr'
    exact ⟨r, hr, heven ▸ hodd ▸ hsol⟩

end OmegaGames
