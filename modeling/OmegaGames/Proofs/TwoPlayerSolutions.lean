import OmegaGames.Proofs.LiftingRegions
import OmegaGames.Proofs.RegionIndependence
import OmegaGames.Proofs.Room

/-!
# Solutions of two player games

In a game without chance a split of the nodes into regions that the players hold is unique, so all
solvers that find one find the same. The recursive solver finds one, and so does lifting, which
refuses a game only if there is no room for its table.
-/
namespace OmegaGames

variable {W : Type} {g : Game W}

/-! ## Unique solutions -/

/-- A split of all nodes into the regions that the players hold. -/
structure IsSolution (g : Game W) (even odd : NodeSet) : Prop where
  range_even : even.range = g.size
  range_odd : odd.range = g.size
  covered : ∀ v < g.size, v ∈ even ∨ v ∈ odd
  held_even : ∃ σ, Dominion g .even σ (NodeSet.full g.size).toSet even.toSet
  held_odd : ∃ τ, Dominion g .odd τ (NodeSet.full g.size).toSet odd.toSet

namespace IsSolution

variable [Scalar W] {even odd even' odd' : NodeSet}

theorem not_mem_odd (hv : g.Valid) (h : IsSolution g even odd) (h' : IsSolution g even' odd') {v : Nat}
    (hve : v ∈ even) : v ∉ odd' := by
  obtain ⟨σ, hσ⟩ := h.held_even
  obtain ⟨τ, hτ⟩ := h'.held_odd
  exact hσ.disjoint (by simp) hv hτ hve

theorem mem_odd_iff (hv : g.Valid) (h : IsSolution g even odd) {v : Nat} (hlt : v < g.size) :
    v ∈ odd ↔ v ∉ even := by
  constructor
  · intro hvo hve
    exact h.not_mem_odd hv h hve hvo
  · exact (h.covered v hlt).resolve_left

theorem unique (hv : g.Valid) (h : IsSolution g even odd) (h' : IsSolution g even' odd') :
    even = even' ∧ odd = odd' := by
  have heven : even = even' := NodeSet.ext_range (h.range_even.trans h'.range_even.symm) fun v hlt => by
    rw [h.range_even] at hlt
    exact ⟨fun hve => (h'.covered v hlt).resolve_right (h.not_mem_odd hv h' hve),
      fun hve => (h.covered v hlt).resolve_right (h'.not_mem_odd hv h hve)⟩
  refine ⟨heven, NodeSet.ext_range (h.range_odd.trans h'.range_odd.symm) fun v hlt => ?_⟩
  rw [h.range_odd] at hlt
  rw [h.mem_odd_iff hv hlt, h'.mem_odd_iff hv hlt, heven]

omit [Scalar W] in
theorem congr (h : IsSolution g even odd) (heven : even'.range = g.size) (hodd : odd'.range = g.size)
    (hmem : ∀ v < g.size, v ∈ even' ↔ v ∈ even) (hmem' : ∀ v < g.size, v ∈ odd' ↔ v ∈ odd) :
    IsSolution g even' odd' := by
  have he : even' = even := NodeSet.ext_range (heven.trans h.range_even.symm) fun v hv =>
    hmem v (heven ▸ hv)
  have ho : odd' = odd := NodeSet.ext_range (hodd.trans h.range_odd.symm) fun v hv =>
    hmem' v (hodd ▸ hv)
  rwa [he, ho]

end IsSolution

/-! ## The solvers -/

section Solvers

variable [Scalar W] (hv : g.Valid) (hno : ∀ v < g.size, g.owner v ≠ .stochastic)

include hv hno in
theorem Recursive.isSolution_regions (s : Recursive) (q : Query) :
    IsSolution g (s.regions g q).even (s.regions g q).odd := by
  obtain ⟨σ, hs⟩ := s.exists_settled_regions q hv
  exact { range_even := hs.range .even (by simp)
          range_odd := hs.range .odd (by simp)
          covered := fun v hlt => (hs.mem .even (by simp) v).mp (NodeSet.mem_full.mpr hlt)
          held_even := ⟨σ, hs.held .even (by simp) (Or.inr hno) rfl⟩
          held_odd := ⟨σ, hs.held .odd (by simp) (Or.inr hno) rfl⟩ }

include hv hno in
theorem Lifting.isSolution_regions (s : Lifting) (request : Request) :
    IsSolution g (s.regions g request).even (s.regions g request).odd := by
  obtain ⟨hr, hst⟩ := Lifting.measures_stable hv s
  have hsol := Recursive.isSolution_regions hv hno ⟨true⟩ ⟨true, .both⟩
  have hheld := Lifting.dominion_of_stable hv (Level.increasing_ofGame g) hr hst
    (σ := ⟨Array.ofFn fun v : Fin g.size => some (bestPosition g (s.measures g) v)⟩) fun u hu _ => by
      rw [Strategy.get_ofFn g.size fun v => some (bestPosition g (s.measures g) v), if_pos hu]
  have htop : ∀ v < g.size, (measureAt (s.measures g) v).isTop = false ↔
      v ∈ (Recursive.regions ⟨true⟩ g ⟨true, .both⟩).even := by
    intro v hlt
    have hle := Measure.rank_le_volume (hr.fits v)
    have hrank : (measureAt (s.measures g) v).isTop = false ↔
        rankAt (Level.ofGame g) (s.measures g) v < Level.volume (Level.ofGame g) := by
      rw [← Bool.not_eq_true, Measure.isTop_iff_rank (hr.fits v), rankAt]
      omega
    rw [hrank]
    constructor
    · intro hlow
      obtain ⟨τ, hτ⟩ := hsol.held_odd
      exact (hsol.covered v hlt).resolve_right (hheld.disjoint (by simp) hv hτ ⟨hlt, hlow⟩)
    · intro hve
      obtain ⟨σ, hσ⟩ := hsol.held_even
      exact rankAt_lt_of_dominion hv hr hσ hno hve
  refine hsol.congr (by simp [Lifting.regions]) (by simp [Lifting.regions]) (fun v hlt => ?_) ?_
  · rw [← htop v hlt]
    simp [Lifting.regions, hlt]
  · intro v hlt
    rw [hsol.mem_odd_iff hv hlt, ← htop v hlt]
    simp [Lifting.regions, hlt]

end Solvers

/-! ## Outcomes -/

namespace Game

variable [Scalar W]

theorem checkValid_of_valid (hg : g.Valid) : g.checkValid = .ok () := by
  have hnone : g.firstError? = none := hg
  simp [checkValid, hnone]

theorem checkValid_of_not_valid (hg : ¬ g.Valid) : ∃ c, g.checkValid = .error (.invalidGame c) := by
  obtain ⟨c, hc⟩ := Option.ne_none_iff_exists'.mp hg
  exact ⟨c, by simp [checkValid, hc]⟩

end Game

section Outcomes

variable [Scalar W] (hv : g.Valid) (hno : ∀ v < g.size, g.owner v ≠ .stochastic)

include hv hno in
theorem Lifting.solve_cases (s : Lifting) (q : Query) :
    (Lifting.HasRoom g → s.solve g q = .ok (s.regions g q.request)) ∧
      (¬ Lifting.HasRoom g → s.solve g q = .error .capacity) := by
  have hnone : g.firstError? = none := hv
  have htwo : (List.range g.size).find? (fun v => g.owner v = .stochastic) = none := by
    rw [List.find?_eq_none]
    intro v hmem
    simpa using hno v (List.mem_range.mp hmem)
  have hroom := Lifting.capacity_le_tableLength_iff hv
  constructor
  · intro h
    have hlow : ¬ Lifting.capacity ≤ Lifting.tableLength g := fun hle => hroom.mp hle h
    simp [Lifting.solve, Game.checkValid, hnone, Game.checkTwoPlayer, htwo, Lifting.checkCapacity, hlow,
      bind, Except.bind, pure, Except.pure]
  · intro h
    have hhigh := hroom.mpr h
    simp [Lifting.solve, Game.checkValid, hnone, Game.checkTwoPlayer, htwo, Lifting.checkCapacity, hhigh,
      bind, Except.bind]

include hv hno in
/-- A solver for two players finds the solution if it has room, and refuses the game otherwise. -/
theorem TwoPlayerSolver.solve_cases (s : TwoPlayerSolver) (q : Query) :
    (s.HasRoom g → ∃ r, s.solve g q = .ok r ∧ IsSolution g r.even r.odd) ∧
      (¬ s.HasRoom g → s.solve g q = .error .capacity) := by
  cases s with
  | recursive r =>
    exact ⟨fun _ => ⟨_, r.solve_eq_ok q hv, r.isSolution_regions hv hno q⟩, fun h => absurd trivial h⟩
  | lifting l =>
    obtain ⟨hok, herr⟩ := l.solve_cases hv hno q
    exact ⟨fun h => ⟨_, hok h, l.isSolution_regions hv hno q.request⟩, herr⟩

end Outcomes

section Answered

variable [Scalar W]

theorem TwoPlayerSolver.valid_of_solve {s : TwoPlayerSolver} {q : Query} {r : Regions}
    (h : s.solve g q = .ok r) : g.Valid := by
  by_contra hg
  obtain ⟨c, hc⟩ := Game.checkValid_of_not_valid hg
  cases s with
  | recursive s => simp [TwoPlayerSolver.solve, Recursive.solve, hc, bind, Except.bind] at h
  | lifting s => simp [TwoPlayerSolver.solve, Lifting.solve, hc, bind, Except.bind] at h

theorem Gadget.solveStrict_eq_ok_iff (inner : TwoPlayerSolver) (g : Game W) (request : Request) (r : Regions) :
    solveStrict inner g request = .ok r ↔ g.normalize.Valid ∧ totalCount g.normalize ≤ capacity ∧
      ∃ r', inner.solve (transform g.normalize) ⟨true, request⟩ = .ok r' ∧
        restore g.normalize request r' = r := by
  by_cases hg : g.normalize.Valid
  · by_cases hcount : totalCount g.normalize ≤ capacity
    · have hsome := transform?_of_le hcount
      cases hr : inner.solve (transform g.normalize) ⟨true, request⟩ with
      | error e => simp [solveStrict, Game.checkValid_of_valid hg, hsome, hr, bind, Except.bind]
      | ok r' =>
        simp [solveStrict, Game.checkValid_of_valid hg, hsome, hcount, hr, hg, bind, Except.bind, pure, Except.pure]
    · have hnone := transform?_of_lt (Nat.not_le.mp hcount)
      simp [solveStrict, Game.checkValid_of_valid hg, hnone, hcount, bind, Except.bind]
  · obtain ⟨c, hc⟩ := Game.checkValid_of_not_valid hg
    simp [solveStrict, hc, hg, bind, Except.bind]

end Answered

end OmegaGames
