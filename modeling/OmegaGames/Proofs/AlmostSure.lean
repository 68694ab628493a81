import OmegaGames.Proofs.GadgetTranslation
import OmegaGames.Proofs.Normalization
import OmegaGames.Proofs.TwoPlayerSolutions

/-!
# Gadgets compute what is won with probability one

The gadget solver finds the nodes from which the strict player wins with probability one, and on the
others the opponent keeps a positive probability of winning by one strategy. It refuses a game only if
there is no room for the gadgets, or for their nodes in the solver behind it.
-/
namespace OmegaGames

variable {W : Type} {g : Game W}

def Query.strict (q : Query) : Player := if q.strictEven then .even else .odd

def Regions.won (r : Regions) : Player → NodeSet
  | .even => r.even
  | _ => r.odd

/-- A split of the nodes into those that a player wins with probability one and those where the opponent
keeps a positive probability of winning. -/
structure IsAlmostSureSplit (g : Game W) (x : Player) (won lost : NodeSet) : Prop where
  range_won : won.range = g.size
  range_lost : lost.range = g.size
  mem_won : ∀ v < g.size, v ∈ won ↔ g.WinsAlmostSurely x v
  mem_lost : ∀ v < g.size, v ∈ lost ↔ v ∉ won
  resisted : ∃ τ : Strategy, τ.Decides g x.opponent ∧ ∀ v ∈ lost, g.WinsPositivelyBy x.opponent τ v

namespace Gadget

variable [Scalar W]

theorem normalize_eq (hg : g.Valid) : g.normalize = g :=
  Game.normalize_eq_self fun _ hv => hg.priority_ne hv

theorem hasRoom_transform (inner : TwoPlayerSolver) :
    inner.HasRoom (transform g) ↔ inner.RoomFor (totalCount g) g := by
  cases inner with
  | recursive r => exact Iff.rfl
  | lifting l =>
    rw [TwoPlayerSolver.HasRoom, size_transform]
    constructor
    · intro h v hv
      have himage := h (image g v) (image_lt hv)
      rwa [priority_image hv] at himage
    · intro h i hi
      obtain ⟨v, hv, hle⟩ := priority_transform_le hi
      have hhalf : ((transform g).priority i + 1) / 2 ≤ (g.priority v + 1) / 2 :=
        Nat.div_le_div_right (Nat.succ_le_succ hle)
      exact (Nat.mul_le_mul_left _ hhalf).trans_lt (h v hv)

private theorem isAlmostSureSplit_restore (hg : g.Valid)
    (hp : ∀ v < g.size, g.priority v < infinitePriority) (request : Request) {r : Regions}
    (hr : IsSolution (transform g) r.even r.odd) :
    IsAlmostSureSplit g .even (restore g request r).even (restore g request r).odd := by
  have hvalid := valid_transform hg hp
  have heven : ∀ v < g.size, v ∈ (restore g request r).even ↔ image g v ∈ r.even := by
    intro v hv
    simp [restore, image, hv]
  have hodd : ∀ v < g.size, v ∈ (restore g request r).odd ↔ image g v ∈ r.odd := by
    intro v hv
    have hiff := hr.mem_odd_iff hvalid (image_lt hv)
    simp only [NodeSet.mem_iff, image] at hiff
    simp only [restore, NodeSet.mem_iff, NodeSet.contains_ofPred, hv, decide_true, Bool.true_and, image,
      Bool.and_eq_true, Bool.not_eq_true']
    rw [and_iff_right_iff_imp, hiff]
    simp
  obtain ⟨σ', hσ'⟩ := hr.held_even
  obtain ⟨τ', hτ'⟩ := hr.held_odd
  obtain ⟨τ, hτ, hpos⟩ := exists_winsPositivelyBy hτ' hg
  have hlost : ∀ v < g.size, v ∈ (restore g request r).odd ↔ v ∉ (restore g request r).even := by
    intro v hv
    rw [heven v hv, hodd v hv, hr.mem_odd_iff hvalid (image_lt hv)]
  have hresist : ∀ v ∈ (restore g request r).odd, g.WinsPositivelyBy .odd τ v := by
    intro v hmem
    have hv : v < g.size := by simpa [restore] using NodeSet.lt_range hmem
    exact hpos v hv ((hodd v hv).mp hmem)
  refine ⟨by simp [restore], by simp [restore], fun v hv => ⟨fun hmem => ?_, fun hwin => ?_⟩, hlost,
    τ, hτ, hresist⟩
  · let σ : Strategy := ⟨Array.ofFn fun u : Fin g.size => σ'.get (image g u)⟩
    have hσ : ∀ u < g.size, σ.get u = σ'.get (image g u) := fun u hu => by
      rw [Strategy.get_ofFn g.size fun u => σ'.get (image g u), if_pos hu]
    have hdom := dominion_of_transform hσ' hg hσ
    exact hdom.winsAlmostSurely (by simp) hg ⟨hv, (heven v hv).mp hmem⟩
  · by_contra hmem
    exact hwin.not_winsPositivelyBy (by simp) hτ (hresist v ((hlost v hv).mpr hmem))

/-- Solving for Even finds the nodes that Even wins with probability one. -/
theorem solveStrict_cases (inner : TwoPlayerSolver) (hg : g.Valid)
    (hp : ∀ v < g.size, g.priority v < infinitePriority) (request : Request) :
    (HasRoom inner g → ∃ r, solveStrict inner g request = .ok r ∧
      IsAlmostSureSplit g .even r.even r.odd) ∧
    (¬ HasRoom inner g → solveStrict inner g request = .error .capacity) := by
  have hvalid := valid_transform hg hp
  have hnone : g.firstError? = none := hg
  obtain ⟨hok, herr⟩ := inner.solve_cases hvalid (fun _ => owner_transform) ⟨true, request⟩
  rw [hasRoom_transform] at hok herr
  rw [hasRoom_iff]
  constructor
  · rintro ⟨hcount, hroom⟩
    obtain ⟨r, hr, hsol⟩ := hok hroom
    refine ⟨restore g request r, ?_, isAlmostSureSplit_restore hg hp request hsol⟩
    simp [solveStrict, normalize_eq hg, Game.checkValid, hnone, transform?_of_le hcount, hr, bind, Except.bind,
      pure, Except.pure]
  · intro hroom
    by_cases hcount : totalCount g ≤ capacity
    · have hinner := herr fun h => hroom ⟨hcount, h⟩
      simp [solveStrict, normalize_eq hg, Game.checkValid, hnone, transform?_of_le hcount, hinner, bind, Except.bind]
    · have hlarge := transform?_of_lt (Nat.not_le.mp hcount)
      simp [solveStrict, normalize_eq hg, Game.checkValid, hnone, hlarge, bind, Except.bind]

private theorem isAlmostSureSplit_of_dual (hg : g.Valid) {won lost : NodeSet}
    (h : IsAlmostSureSplit g.dual .even won lost) : IsAlmostSureSplit g .odd won lost := by
  have hlost : lost.range = g.size := h.range_lost.trans g.size_dual
  obtain ⟨τ, hτ, hresist⟩ := h.resisted
  refine ⟨h.range_won.trans g.size_dual, hlost, fun v hv => ?_, fun v hv => ?_, τ, ?_, fun v hmem => ?_⟩
  · rw [h.mem_won v (by simpa using hv)]
    exact hg.winsAlmostSurely_dual (x := .odd) hv
  · exact h.mem_lost v (by simpa using hv)
  · exact (Game.decides_dual (x := .even)).mp hτ
  · have hv : v < g.size := hlost ▸ NodeSet.lt_range hmem
    exact (hg.winsPositivelyBy_dual (x := .even) hv).mp (hresist v hmem)

/-- Solving by gadgets finds the nodes that the strict player wins with probability one. -/
theorem solve_cases (inner : TwoPlayerSolver) (hg : g.Valid)
    (hp : ∀ v < g.size, g.priority v + 1 < infinitePriority) (q : Query) :
    ((QualitativeSolver.gadget inner).HasRoom g q → ∃ r, solve inner g q = .ok r ∧
      IsAlmostSureSplit g q.strict (r.won q.strict) (r.won q.strict.opponent)) ∧
    (¬ (QualitativeSolver.gadget inner).HasRoom g q → solve inner g q = .error .capacity) := by
  cases hq : q.strictEven with
  | true =>
    have hlow : ∀ v < g.size, g.priority v < infinitePriority := fun v hv => Nat.lt_of_succ_lt (hp v hv)
    obtain ⟨hok, herr⟩ := solveStrict_cases inner hg hlow q.request
    simp only [QualitativeSolver.HasRoom, solve, Query.strict, hq, if_true]
    exact ⟨hok, herr⟩
  | false =>
    have hlow : ∀ v < g.dual.size, g.dual.priority v < infinitePriority := by
      intro v hv
      rw [Game.size_dual] at hv
      rw [hg.priority_dual hv]
      exact hp v hv
    obtain ⟨hok, herr⟩ := solveStrict_cases inner (hg.dual hp) hlow q.request.swapped
    simp only [QualitativeSolver.HasRoom, solve, Query.strict, hq, Bool.false_eq_true, if_false]
    constructor
    · intro hroom
      obtain ⟨r, hr, hsplit⟩ := hok hroom
      refine ⟨r.swapped, by simp [hr, bind, Except.bind, pure, Except.pure], ?_⟩
      exact isAlmostSureSplit_of_dual hg hsplit
    · intro hroom
      simp [herr hroom, bind, Except.bind]

/-- Solved for Even, the even region holds exactly the nodes from which Even has a positional strategy that
wins with probability one, and the odd region the others; a game is refused only if there is no room for its
gadgets, or for their nodes in the solver behind them. -/
theorem solve_mem_even_iff (inner : TwoPlayerSolver) (request : Request) (hg : g.Valid)
    (hp : ∀ v < g.size, g.priority v < infinitePriority) :
    (HasRoom inner g → ∃ r, solve inner g ⟨true, request⟩ = .ok r ∧ ∀ v < g.size,
      (v ∈ r.even ↔ g.WinsAlmostSurely .even v) ∧ (v ∈ r.odd ↔ ¬ g.WinsAlmostSurely .even v)) ∧
    (¬ HasRoom inner g → solve inner g ⟨true, request⟩ = .error .capacity) := by
  obtain ⟨hok, herr⟩ := solveStrict_cases inner hg hp request
  refine ⟨fun hroom => ?_, herr⟩
  obtain ⟨r, hr, hsplit⟩ := hok hroom
  refine ⟨r, hr, fun v hv => ⟨hsplit.mem_won v hv, ?_⟩⟩
  rw [hsplit.mem_lost v hv, hsplit.mem_won v hv]

end Gadget

/-- Even can stay at node 0 or try its luck at node 1, which leads back or to node 2, where Odd wins. -/
def Game.gamble : Game Rat :=
  ⟨#[⟨.even, 1, [⟨0, 1⟩, ⟨1, 1⟩]⟩, ⟨.stochastic, 0, [⟨0, 1 / 2⟩, ⟨2, 1 / 2⟩]⟩, ⟨.odd, 1, [⟨2, 1⟩]⟩]⟩

theorem Game.valid_gamble : Game.gamble.Valid := Option.isNone_iff_eq_none.mp (by decide +kernel)

/-- A loop at a priority for which lifting has no room. -/
def Game.tower (W : Type) [Scalar W] : Game W := ⟨#[⟨.even, Nat.pow 2 62, [⟨0, Scalar.one⟩]⟩]⟩

theorem Gadget.solve_gamble_mem_even_iff :
    Game.gamble.Valid ∧ (∀ v < Game.gamble.size, Game.gamble.priority v < infinitePriority) ∧
      ∃ r, Gadget.solve (.lifting ⟨.all, .fifo⟩) Game.gamble ⟨true, .both⟩ = .ok r ∧
        ∀ v < Game.gamble.size, (v ∈ r.even ↔ Game.gamble.WinsAlmostSurely .even v) ∧
          (v ∈ r.odd ↔ ¬ Game.gamble.WinsAlmostSurely .even v) := by
  have hg := Game.valid_gamble
  have hp : ∀ v < Game.gamble.size, Game.gamble.priority v < infinitePriority := by decide
  have hroom : Gadget.HasRoom (.lifting ⟨.all, .fifo⟩) Game.gamble := by decide +kernel
  exact ⟨hg, hp, (Gadget.solve_mem_even_iff _ .both hg hp).1 hroom⟩

/-- Even wins the tower, but gadgets over lifting refuse it. -/
theorem Gadget.solve_tower_ne_ok :
    (Game.tower Rat).Valid ∧ (∀ v < (Game.tower Rat).size, (Game.tower Rat).priority v < infinitePriority) ∧
      (Game.tower Rat).WinsAlmostSurely .even 0 ∧
      ∀ r, Gadget.solve (.lifting ⟨.successorChanged, .fifo⟩) (Game.tower Rat) ⟨true, .none⟩ ≠ .ok r := by
  have hg : (Game.tower Rat).Valid := rfl
  have hp : ∀ v < (Game.tower Rat).size, (Game.tower Rat).priority v < infinitePriority := by decide
  have hfull : ∀ {u}, u ∈ (NodeSet.full (Game.tower Rat).size).toSet → u = 0 := fun hu =>
    Nat.lt_one_iff.mp (NodeSet.mem_full.mp hu)
  have hzero : 0 ∈ (NodeSet.full (Game.tower Rat).size).toSet := NodeSet.mem_full.mpr Nat.one_pos
  have hheld : Dominion (Game.tower Rat) .even ⟨#[some 0]⟩ (NodeSet.full (Game.tower Rat).size).toSet
      (NodeSet.full (Game.tower Rat).size).toSet := by
    refine Dominion.of_sameParity (fun u hu => ?_) fun u hu _ => ⟨0, 0, ?_, ?_, hzero⟩
    · rw [hfull hu]
      decide
    · rw [hfull hu]
      rfl
    · rw [hfull hu]
      rfl
  refine ⟨hg, hp, hheld.winsAlmostSurely (by simp) hg hzero, fun r hr => ?_⟩
  have hroom : ¬ Gadget.HasRoom (.lifting ⟨.successorChanged, .fifo⟩) (Game.tower Rat) := by decide +kernel
  have herr : Gadget.solve (.lifting ⟨.successorChanged, .fifo⟩) (Game.tower Rat) ⟨true, .none⟩ =
      .error .capacity :=
    (Gadget.solveStrict_cases _ hg hp .none).2 hroom
  rw [herr] at hr
  cases hr

end OmegaGames
