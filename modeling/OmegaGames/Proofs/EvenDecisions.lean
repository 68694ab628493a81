import OmegaGames.Proofs.Agreement
import OmegaGames.Proofs.LiftingSchedules
import OmegaGames.Proofs.Views

/-!
# Asked for Even's decisions

Every solver that is asked for Even to win with probability one and for Even's decisions records
decisions by which Even holds its region. On an invalid game every solver names a defect, and on a valid
one a solver that handles its nodes refuses only for want of room.
-/
namespace OmegaGames

variable {W : Type} {g : Game W}

structure Regions.HeldByEven (r : Regions) (g : Game W) : Prop where
  range : r.even.range = g.size
  held : ∃ σ, r.strategy = some σ ∧ Dominion g .even σ (NodeSet.full g.size).toSet r.even.toSet

/-- Decisions on nodes of others do not matter for a region that a player holds. -/
theorem Dominion.congr_owned {x : Player} {σ τ : Strategy} {won : Set Nat}
    (h : Dominion g x σ (NodeSet.full g.size).toSet won)
    (he : ∀ u ∈ won, g.owner u = x → τ.get u = σ.get u) :
    Dominion g x τ (NodeSet.full g.size).toSet won := by
  have hview : g.View g id (NodeSet.full g.size).toSet (NodeSet.full g.size).toSet :=
    { owner := fun _ _ => rfl
      priority := fun _ _ => rfl
      succ := fun _ _ _ ht hin => ⟨ht, hin⟩
      chance := fun _ _ _ w hw hin => ⟨w, hw, hin, rfl⟩ }
  have hwon : {v | v ∈ (NodeSet.full g.size).toSet ∧ id v ∈ won} = won :=
    Set.ext fun v => ⟨fun hv => hv.2, fun hv => ⟨h.inside hv, hv⟩⟩
  rw [← hwon]
  apply h.view hview
  rw [hwon]
  intro v hv ho
  obtain ⟨i, t, hi, ht, htw⟩ := h.decided v hv ho
  exact ⟨i, t, i, (he v hv ho).trans hi, ht, htw, hi, ht⟩

section Solvers

variable [Scalar W]

theorem Recursive.heldByEven_regions (s : Recursive) (hg : g.Valid) :
    (s.regions g ⟨true, .evenOnly⟩).HeldByEven g := by
  have hs := s.settled_full ⟨true, .evenOnly⟩ hg
  exact ⟨hs.range .even (by simp), _, rfl, hs.held .even (by simp) (Or.inl rfl) rfl⟩

theorem Lifting.heldByEven_regions (s : Lifting) (hg : g.Valid) {request : Request}
    (hq : request.even = true) : (s.regions g request).HeldByEven g := by
  obtain ⟨hr, hst⟩ := Lifting.measures_stable hg s
  have hany : request.any = true := by simp [Request.any, hq]
  obtain ⟨σ, hσ, hget⟩ := s.exists_strategy_regions g hany
  have hheld := Lifting.dominion_of_stable hg (Level.increasing_ofGame g) hr hst fun v hv ho =>
    (hget v hv).trans (if_pos (by rw [ho]; exact hq))
  have hregion : (s.regions g request).even.toSet = {v | v < g.size ∧
      rankAt (Level.ofGame g) (s.measures g) v < Level.volume (Level.ofGame g)} := by
    ext v
    have hle := Measure.rank_le_volume (hr.fits v)
    have htop := Measure.isTop_iff_rank (hr.fits v)
    simp only [NodeSet.mem_toSet, Lifting.regions, NodeSet.contains_ofPred, Bool.and_eq_true,
      decide_eq_true_eq, Bool.not_eq_true', Set.mem_ofPred_eq, rankAt]
    refine and_congr_right fun _ => ?_
    rw [← Bool.not_eq_true, htop]
    omega
  exact ⟨by simp [Lifting.regions], σ, hσ, hregion ▸ hheld⟩

theorem Gadget.heldByEven_restore (hg : g.Valid) {r : Regions} (hr : r.HeldByEven (Gadget.transform g)) :
    (Gadget.restore g .evenOnly r).HeldByEven g := by
  obtain ⟨σ', hσ', hheld⟩ := hr.held
  let σ : Strategy := ⟨Array.ofFn fun v : Fin g.size => σ'.get (image g v)⟩
  have hσ : ∀ u < g.size, σ.get u = σ'.get (image g u) := fun u hu => by
    rw [Strategy.get_ofFn g.size fun u => σ'.get (image g u), if_pos hu]
  have hregion : (Gadget.restore g .evenOnly r).even.toSet = {v | v < g.size ∧ image g v ∈ r.even.toSet} := by
    ext v
    simp [restore, image]
  have hdom := dominion_of_transform hheld hg hσ
  rw [← hregion] at hdom
  refine ⟨by simp [restore], _, by rw [restore, hσ']; rfl, hdom.congr_owned fun u hu ho => ?_⟩
  -- only the decisions on nodes of Even were brought back
  have hlt := NodeSet.mem_full.mp (hdom.inside hu)
  rw [hσ u hlt, Strategy.get_ofFn g.size fun v =>
    if Request.evenOnly.wants (g.owner v) then σ'.get ((mapping g).getD v 0) else none, if_pos hlt, ho]
  rfl

end Solvers

/-! ## Outcomes -/

/-- Whether a solver is for the nodes of a game: lifting knows no chance. -/
def QualitativeSolver.Handles (s : QualitativeSolver) (g : Game W) : Prop :=
  match s with
  | .lifting _ => ∀ v < g.size, g.owner v ≠ .stochastic
  | _ => True

section Outcomes

variable [Scalar W] {r : Regions}

theorem TwoPlayerSolver.heldByEven_of_solve (s : TwoPlayerSolver) (hg : g.Valid)
    (h : s.solve g ⟨true, .evenOnly⟩ = .ok r) : r.HeldByEven g := by
  cases s with
  | recursive s =>
    obtain rfl := Except.ok.inj ((s.solve_eq_ok ⟨true, .evenOnly⟩ hg).symm.trans h)
    exact s.heldByEven_regions hg
  | lifting s =>
    obtain ⟨-, -, h⟩ := exists_of_bind_eq_ok h
    obtain ⟨-, -, h⟩ := exists_of_bind_eq_ok h
    obtain ⟨-, -, h⟩ := exists_of_bind_eq_ok h
    cases h
    exact s.heldByEven_regions hg rfl

namespace QualitativeSolver

variable (s : QualitativeSolver)

/-- Gadgets are built in the normalised game, and the other solvers only know normalised games. -/
theorem valid_normalize_of_solve {s : QualitativeSolver} {request : Request}
    (h : s.solve g ⟨true, request⟩ = .ok r) : g.normalize.Valid := by
  have htwo : g.Valid → g.normalize.Valid := fun hg => (Gadget.normalize_eq hg).symm ▸ hg
  cases s with
  | recursive s => exact htwo (TwoPlayerSolver.valid_of_solve (s := .recursive s) h)
  | lifting s => exact htwo (TwoPlayerSolver.valid_of_solve (s := .lifting s) h)
  | gadget inner => exact ((Gadget.solveStrict_eq_ok_iff ..).mp h).1

/-- Even holds its region in the normalised game by the decisions that a solver records for it. -/
theorem heldByEven_normalize_of_solve {s : QualitativeSolver} (h : s.solve g ⟨true, .evenOnly⟩ = .ok r) :
    r.HeldByEven g.normalize := by
  have htwo : ∀ s : TwoPlayerSolver, s.solve g ⟨true, .evenOnly⟩ = .ok r → r.HeldByEven g.normalize := by
    intro s h
    have hg := TwoPlayerSolver.valid_of_solve h
    rw [Gadget.normalize_eq hg]
    exact s.heldByEven_of_solve hg h
  cases s with
  | recursive s => exact htwo (.recursive s) h
  | lifting s => exact htwo (.lifting s) h
  | gadget inner =>
    obtain ⟨hg, -, r', hr', rfl⟩ := (Gadget.solveStrict_eq_ok_iff ..).mp h
    exact Gadget.heldByEven_restore hg
      (inner.heldByEven_of_solve (TwoPlayerSolver.valid_of_solve hr') hr')

theorem heldByEven_of_solve (hg : g.Valid) (h : s.solve g ⟨true, .evenOnly⟩ = .ok r) :
    r.HeldByEven g :=
  Gadget.normalize_eq hg ▸ heldByEven_normalize_of_solve h

variable (hp : ∀ v < g.size, g.priority v < infinitePriority)

include hp in
/-- On a valid game a solver that is for its nodes refuses only for want of room. -/
theorem solve_strictEven_cases (hg : g.Valid) (hs : s.Handles g) (request : Request) :
    (s.HasRoom g ⟨true, request⟩ → ∃ r, s.solve g ⟨true, request⟩ = .ok r) ∧
      (¬ s.HasRoom g ⟨true, request⟩ → s.solve g ⟨true, request⟩ = .error .capacity) := by
  cases s with
  | recursive s => exact ⟨fun _ => ⟨_, s.solve_eq_ok _ hg⟩, fun h => absurd trivial h⟩
  | lifting s =>
    obtain ⟨hok, herr⟩ := (TwoPlayerSolver.lifting s).solve_cases hg hs ⟨true, request⟩
    exact ⟨fun hroom => (hok hroom).imp fun _ h => h.1, herr⟩
  | gadget inner =>
    obtain ⟨hok, herr⟩ := Gadget.solveStrict_cases inner hg hp request
    exact ⟨fun hroom => (hok hroom).imp fun _ h => h.1, herr⟩

include hp in
theorem solve_of_not_valid (hg : ¬ g.Valid) (request : Request) :
    ∃ c, s.solve g ⟨true, request⟩ = .error (.invalidGame c) := by
  obtain ⟨c, hc⟩ := Game.checkValid_of_not_valid hg
  refine ⟨c, ?_⟩
  cases s with
  | recursive s => simp [QualitativeSolver.solve, Recursive.solve, hc, bind, Except.bind]
  | lifting s => simp [QualitativeSolver.solve, Lifting.solve, hc, bind, Except.bind]
  | gadget inner =>
    simp [QualitativeSolver.solve, Gadget.solve, Gadget.solveStrict,
      Game.normalize_eq_self fun v hv => (hp v hv).ne, hc, bind, Except.bind]

end QualitativeSolver

end Outcomes

end OmegaGames
