import OmegaGames.Proofs.AlmostSure
import OmegaGames.Proofs.Computations
import OmegaGames.Proofs.WinningStrategies

/-!
# Where the solvers agree

On games without chance all solvers find the one solution. With chance the recursive solver gives the
strict player only nodes that are won with probability one, but it may give too many to the opponent:
once a region of the strict player has been taken away, a stochastic node of the rest may lead into it
unnoticed. It agrees with the gadgets exactly if the opponent can defend all that it was given.
-/
namespace OmegaGames

open Relation

variable {W : Type} {g : Game W}

theorem Query.strict_ne_stochastic (q : Query) : q.strict ≠ .stochastic := by
  rw [Query.strict]
  split <;> simp

theorem Query.needsAlmostSure_strict (q : Query) : q.needsAlmostSure q.strict = true := by
  cases h : q.strictEven <;> simp [Query.strict, Query.needsAlmostSure, h]

private theorem Regions.eq_of_won {x : Player} (hx : x ≠ .stochastic) {r r' : Regions}
    (h : r.won x = r'.won x) (h' : r.won x.opponent = r'.won x.opponent) :
    r.even = r'.even ∧ r.odd = r'.odd := by
  cases x with
  | even => exact ⟨h, h'⟩
  | odd => exact ⟨h', h⟩
  | stochastic => exact absurd rfl hx

/-- The two players do not both win with probability one. -/
theorem Game.WinsAlmostSurely.not_opponent [Scalar W] {x : Player} (hx : x ≠ .stochastic) (hg : g.Valid)
    {v : Nat} (hv : v < g.size) (h : g.WinsAlmostSurely x v) : ¬ g.WinsAlmostSurely x.opponent v := by
  rintro ⟨τ, hτ, hwin'⟩
  obtain ⟨σ, hσ, hwin⟩ := h
  have hclosed : ∀ a ∈ {a | a < g.size}, ∀ b, g.Plays x σ τ a b → b ∈ {a | a < g.size} :=
    fun _ _ _ hab => hg.succ_lt hab.mem_succs
  obtain ⟨C, hC, -, u, hu, hvu⟩ := exists_isBottomComponent (Set.finite_lt_nat g.size) hclosed hv
  have hfav := hwin τ hτ C hC ⟨u, hu, hvu⟩
  have hfav' := hwin' σ (by simpa using hσ) C hC.swap
    ⟨u, hu, ReflTransGen.mono (fun _ _ => Game.Plays.symm) _ _ hvu⟩
  exact Player.opponent_ne_self hx (hfav'.eq hC.nonempty hfav)

/-! ## Games without chance -/

namespace IsSolution

variable [Scalar W] {r : Regions} (hg : g.Valid) (hr : IsSolution g r.even r.odd) {x : Player}
  (hx : x ≠ .stochastic)

include hx

omit [Scalar W] in
private theorem held (hr : IsSolution g r.even r.odd) :
    (r.won x).range = g.size ∧ ∃ σ, Dominion g x σ (NodeSet.full g.size).toSet (r.won x).toSet := by
  cases x with
  | even => exact ⟨hr.range_even, hr.held_even⟩
  | odd => exact ⟨hr.range_odd, hr.held_odd⟩
  | stochastic => exact absurd rfl hx

omit [Scalar W] in
private theorem mem_or (hr : IsSolution g r.even r.odd) {v : Nat} (hv : v < g.size) :
    v ∈ r.won x ∨ v ∈ r.won x.opponent := by
  cases x with
  | even => exact hr.covered v hv
  | odd => exact (hr.covered v hv).symm
  | stochastic => exact absurd rfl hx

include hg hr

private theorem mem_won_iff {v : Nat} (hv : v < g.size) : v ∈ r.won x ↔ g.WinsAlmostSurely x v := by
  constructor
  · intro hmem
    obtain ⟨-, σ, hσ⟩ := held hx hr
    exact hσ.winsAlmostSurely hx hg hmem
  · intro hwin
    refine (mem_or hx hr hv).resolve_right fun hmem => hwin.not_opponent hx hg hv ?_
    obtain ⟨-, τ, hτ⟩ := held (Player.opponent_ne_stochastic hx) hr
    exact hτ.winsAlmostSurely (Player.opponent_ne_stochastic hx) hg hmem

theorem eq_of_isAlmostSureSplit {r' : Regions}
    (h : IsAlmostSureSplit g x (r'.won x) (r'.won x.opponent)) :
    r'.even = r.even ∧ r'.odd = r.odd := by
  have hxo := Player.opponent_ne_stochastic hx
  have hwon : r'.won x = r.won x := by
    refine NodeSet.ext_range (h.range_won.trans (held hx hr).1.symm) fun v hv => ?_
    rw [h.range_won] at hv
    rw [h.mem_won v hv, mem_won_iff hg hr hx hv]
  refine Regions.eq_of_won hx hwon (NodeSet.ext_range (h.range_lost.trans (held hxo hr).1.symm) ?_)
  intro v hv
  rw [h.range_lost] at hv
  rw [h.mem_lost v hv, h.mem_won v hv]
  constructor
  · intro hnot
    exact (mem_or hx hr hv).resolve_left fun hmem => hnot ((mem_won_iff hg hr hx hv).mp hmem)
  · intro hmem hwin
    exact hwin.not_opponent hx hg hv ((mem_won_iff hg hr hxo hv).mp hmem)

end IsSolution

theorem priority_succ_lt {p : Nat} (h : p < Nat.pow 2 64 - 2) : p + 1 < infinitePriority := by
  rw [infinitePriority]
  rw [show Nat.pow 2 64 = 18446744073709551616 from rfl] at h ⊢
  omega

/-- On a valid game without chance every solver finds the one solution, whoever is strict and whichever
decisions are asked for, or refuses the game for want of room. -/
theorem QualitativeSolver.solve_agree [Scalar W] (g : Game W) (hg : g.Valid)
    (hno : ∀ v < g.size, g.owner v ≠ .stochastic)
    (hp : ∀ v < g.size, g.priority v < Nat.pow 2 64 - 2) :
    ∃ even odd, IsSolution g even odd ∧ ∀ (s : QualitativeSolver) (q : Query),
      (s.HasRoom g q → ∃ r, s.solve g q = .ok r ∧ r.even = even ∧ r.odd = odd) ∧
      (¬ s.HasRoom g q → s.solve g q = .error .capacity) := by
  have hsol := Recursive.isSolution_regions hg hno ⟨true⟩ ⟨true, .none⟩
  have htwo : ∀ (s : TwoPlayerSolver) (q : Query), (s.HasRoom g → ∃ r, s.solve g q = .ok r ∧
      r.even = (Recursive.regions ⟨true⟩ g ⟨true, .none⟩).even ∧
      r.odd = (Recursive.regions ⟨true⟩ g ⟨true, .none⟩).odd) ∧
      (¬ s.HasRoom g → s.solve g q = .error .capacity) := by
    intro s q
    obtain ⟨hok, herr⟩ := s.solve_cases hg hno q
    refine ⟨fun hroom => ?_, herr⟩
    obtain ⟨r, hr, hsol'⟩ := hok hroom
    exact ⟨r, hr, hsol'.unique hg hsol⟩
  refine ⟨_, _, hsol, fun s q => ?_⟩
  cases s with
  | recursive settings => exact htwo (.recursive settings) q
  | lifting settings => exact htwo (.lifting settings) q
  | gadget inner =>
    obtain ⟨hok, herr⟩ := Gadget.solve_cases inner hg (fun v hv => priority_succ_lt (hp v hv)) q
    refine ⟨fun hroom => ?_, herr⟩
    obtain ⟨r, hr, hsplit⟩ := hok hroom
    exact ⟨r, hr, hsol.eq_of_isAlmostSureSplit hg q.strict_ne_stochastic hsplit⟩

/-- At the fork all solvers find the same regions. -/
theorem QualitativeSolver.solve_fork_agree :
    (Game.fork Rat).Valid ∧ (∀ v < (Game.fork Rat).size, (Game.fork Rat).owner v ≠ .stochastic) ∧
      (∀ v < (Game.fork Rat).size, (Game.fork Rat).priority v < Nat.pow 2 64 - 2) ∧
      ∃ even odd, IsSolution (Game.fork Rat) even odd ∧ ∀ (s : QualitativeSolver) (q : Query),
        ∃ r, s.solve (Game.fork Rat) q = .ok r ∧ r.even = even ∧ r.odd = odd := by
  have hg : (Game.fork Rat).Valid := rfl
  have hno : ∀ v < (Game.fork Rat).size, (Game.fork Rat).owner v ≠ .stochastic := by decide
  have hp : ∀ v < (Game.fork Rat).size, (Game.fork Rat).priority v < Nat.pow 2 64 - 2 := by decide
  have hlow : Lifting.HasRoom (Game.fork Rat) := by decide
  have hgadget : ∀ b : Bool,
      Gadget.HasRoom (.lifting ⟨.all, .fifo⟩) (if b then Game.fork Rat else (Game.fork Rat).dual) := by
    decide +kernel
  have hroom : ∀ (s : QualitativeSolver) (q : Query), s.HasRoom (Game.fork Rat) q := by
    rintro (_ | _ | (_ | _)) ⟨b, _⟩
    · exact trivial
    · exact hlow
    · exact ⟨(hgadget b).1, trivial⟩
    · exact hgadget b
  obtain ⟨even, odd, hsol, h⟩ := QualitativeSolver.solve_agree (Game.fork Rat) hg hno hp
  exact ⟨hg, hno, hp, even, odd, hsol, fun s q => (h s q).1 (hroom s q)⟩

/-- The tower has one node and no chance, but lifting refuses it where the recursive solver answers. -/
theorem QualitativeSolver.solve_tower_disagree :
    (Game.tower Rat).Valid ∧ (∀ v < (Game.tower Rat).size, (Game.tower Rat).owner v ≠ .stochastic) ∧
      (Game.tower Rat).size < Nat.pow 2 32 - 1 ∧
      (∀ v < (Game.tower Rat).size, (Game.tower Rat).priority v < Nat.pow 2 64 - 2) ∧
      (∃ r, (QualitativeSolver.recursive ⟨true⟩).solve (Game.tower Rat) ⟨true, .none⟩ = .ok r) ∧
      ∀ r, (QualitativeSolver.lifting ⟨.successorChanged, .fifo⟩).solve (Game.tower Rat) ⟨true, .none⟩ ≠ .ok r := by
  have hg : (Game.tower Rat).Valid := rfl
  have hno : ∀ v < (Game.tower Rat).size, (Game.tower Rat).owner v ≠ .stochastic := by decide
  refine ⟨hg, hno, by decide, by decide, ⟨_, Recursive.solve_eq_ok ⟨true⟩ ⟨true, .none⟩ hg⟩, fun r hr => ?_⟩
  have hroom : ¬ (TwoPlayerSolver.lifting ⟨.successorChanged, .fifo⟩).HasRoom (Game.tower Rat) := by decide
  have herr : (QualitativeSolver.lifting ⟨.successorChanged, .fifo⟩).solve (Game.tower Rat) ⟨true, .none⟩ =
      .error .capacity :=
    ((TwoPlayerSolver.lifting ⟨.successorChanged, .fifo⟩).solve_cases hg hno ⟨true, .none⟩).2 hroom
  rw [herr] at hr
  cases hr

/-! ## Games with chance -/

section Chance

variable [Scalar W] (s : Recursive) (q : Query) (hg : g.Valid)

include hg

private theorem Recursive.split_regions {x : Player} (hx : x ≠ .stochastic) :
    ((s.regions g q).won x).range = g.size ∧
      ∀ v < g.size, v ∈ (s.regions g q).won x ↔ v ∉ (s.regions g q).won x.opponent := by
  obtain ⟨σ, hs⟩ := s.exists_settled_regions q hg
  have hwon : ∀ y, (Split.mk (s.regions g q).even (s.regions g q).odd σ).won y =
      (s.regions g q).won y := fun y => by cases y <;> rfl
  have hrange := hs.range x hx
  have hmem := hs.mem x hx
  have hdis := hs.disjoint x hx
  rw [hwon] at hrange
  rw [hwon, hwon] at hmem hdis
  refine ⟨hrange, fun v hv => ⟨hdis v, ?_⟩⟩
  exact ((hmem v).mp (NodeSet.mem_full.mpr hv)).resolve_right

/-- What the recursive solver gives the strict player is won with probability one. -/
theorem Recursive.winsAlmostSurely_of_mem_regions {v : Nat} (hv : v ∈ (s.regions g q).won q.strict) :
    g.WinsAlmostSurely q.strict v := by
  obtain ⟨σ, hs⟩ := s.exists_settled_regions q hg
  have hx := q.strict_ne_stochastic
  have hwants : Request.both.wants q.strict = true := by
    rw [Query.strict]
    split <;> rfl
  have hheld := hs.held q.strict hx (Or.inl q.needsAlmostSure_strict) hwants
  refine hheld.winsAlmostSurely hx hg ?_
  cases h : q.strictEven <;> simpa [Query.strict, h, Regions.won, Split.won] using hv

end Chance

/-- The recursive solver gives the strict player a part of what the gadgets give it. They agree exactly if
the opponent has a strategy that keeps a positive probability of winning from every node that the recursive
solver gives to it. -/
theorem Recursive.solve_eq_gadget_iff [Scalar W] (s : Recursive) (inner : TwoPlayerSolver) (q : Query)
    (hg : g.Valid) (hp : ∀ v < g.size, g.priority v < Nat.pow 2 64 - 2) :
    ∃ r, s.solve g q = .ok r ∧
      ((QualitativeSolver.gadget inner).HasRoom g q → ∃ r', Gadget.solve inner g q = .ok r' ∧
        (∀ v ∈ r.won q.strict, v ∈ r'.won q.strict) ∧
        ((r.even = r'.even ∧ r.odd = r'.odd) ↔ ∃ τ : Strategy, τ.Decides g q.strict.opponent ∧
          ∀ v ∈ r.won q.strict.opponent, g.WinsPositivelyBy q.strict.opponent τ v)) ∧
      (¬ (QualitativeSolver.gadget inner).HasRoom g q → Gadget.solve inner g q = .error .capacity) := by
  have hx := q.strict_ne_stochastic
  obtain ⟨hok, herr⟩ := Gadget.solve_cases inner hg (fun v hv => priority_succ_lt (hp v hv)) q
  obtain ⟨hrange, hsplit⟩ := s.split_regions q hg hx
  obtain ⟨hrange', -⟩ := s.split_regions q hg (Player.opponent_ne_stochastic hx)
  refine ⟨_, s.solve_eq_ok q hg, fun hroom => ?_, herr⟩
  obtain ⟨r', hr', has⟩ := hok hroom
  have hsub : ∀ v ∈ (s.regions g q).won q.strict, v ∈ r'.won q.strict := by
    intro v hv
    rw [has.mem_won v (hrange ▸ NodeSet.lt_range hv)]
    exact s.winsAlmostSurely_of_mem_regions q hg hv
  refine ⟨r', hr', hsub, fun heq => ?_, fun hτ => ?_⟩
  · have hlost : (s.regions g q).won q.strict.opponent = r'.won q.strict.opponent := by
      cases h : q.strictEven <;> simp [Query.strict, h, Player.opponent, Regions.won, heq.1, heq.2]
    rw [hlost]
    exact has.resisted
  · obtain ⟨τ, hdec, hpos⟩ := hτ
    -- What the opponent defends is not won with probability one, so the gadgets find no more.
    have hiff : ∀ v < g.size, v ∈ (s.regions g q).won q.strict ↔ v ∈ r'.won q.strict := by
      intro v hv
      refine ⟨hsub v, fun hmem => (hsplit v hv).mpr fun hopp => ?_⟩
      exact ((has.mem_won v hv).mp hmem).not_winsPositivelyBy hx hdec (hpos v hopp)
    have hwon : (s.regions g q).won q.strict = r'.won q.strict :=
      NodeSet.ext_range (hrange.trans has.range_won.symm) fun v hv => hiff v (hrange ▸ hv)
    refine Regions.eq_of_won hx hwon (NodeSet.ext_range (hrange'.trans has.range_lost.symm) fun v hv => ?_)
    rw [hrange'] at hv
    rw [has.mem_lost v hv, ← hwon, hsplit v hv, not_not]

theorem Recursive.solve_gamble_eq_gadget_iff :
    Game.gamble.Valid ∧ (∀ v < Game.gamble.size, Game.gamble.priority v < Nat.pow 2 64 - 2) ∧
      ∃ r r', Recursive.solve ⟨true⟩ Game.gamble ⟨false, .none⟩ = .ok r ∧
        Gadget.solve (.lifting ⟨.all, .fifo⟩) Game.gamble ⟨false, .none⟩ = .ok r' ∧
        (∀ v ∈ r.won .odd, v ∈ r'.won .odd) ∧
        ((r.even = r'.even ∧ r.odd = r'.odd) ↔ ∃ τ : Strategy, τ.Decides Game.gamble .even ∧
          ∀ v ∈ r.won .even, Game.gamble.WinsPositivelyBy .even τ v) := by
  have hp : ∀ v < Game.gamble.size, Game.gamble.priority v < Nat.pow 2 64 - 2 := by decide
  have hroom : QualitativeSolver.HasRoom (.gadget (.lifting ⟨.all, .fifo⟩)) Game.gamble ⟨false, .none⟩ := by
    decide +kernel
  obtain ⟨r, hr, hok, -⟩ := Recursive.solve_eq_gadget_iff ⟨true⟩ (.lifting ⟨.all, .fifo⟩)
    ⟨false, .none⟩ Game.valid_gamble hp
  obtain ⟨r', hr', hsub, hiff⟩ := hok hroom
  exact ⟨Game.valid_gamble, hp, r, r', hr, hr', hsub, hiff⟩

/-- With Odd strict the recursive solver gives nodes 0 and 1 of the gamble to Even, although Odd wins
there with probability one, as the gadgets find. -/
theorem Recursive.solve_gamble_ne_gadget :
    Game.gamble.Valid ∧ (∀ v < Game.gamble.size, Game.gamble.priority v < Nat.pow 2 64 - 2) ∧
      ∃ r r', Recursive.solve ⟨true⟩ Game.gamble ⟨false, .none⟩ = .ok r ∧
        Gadget.solve (.recursive ⟨true⟩) Game.gamble ⟨false, .none⟩ = .ok r' ∧
        r.even ≠ r'.even ∧ r.odd ≠ r'.odd := by
  have hrec : answers (Recursive.solve ⟨true⟩ Game.gamble ⟨false, .none⟩)
      (fun r => r.even.contains 0 && !r.odd.contains 0) = true := by decide +kernel
  have hgad : answers (Gadget.solve (.recursive ⟨true⟩) Game.gamble ⟨false, .none⟩)
      (fun r => !r.even.contains 0 && r.odd.contains 0) = true := by decide +kernel
  obtain ⟨r, hr, htest⟩ := exists_of_answers hrec
  obtain ⟨r', hr', htest'⟩ := exists_of_answers hgad
  simp only [Bool.and_eq_true, Bool.not_eq_true'] at htest htest'
  refine ⟨Game.valid_gamble, by decide, r, r', hr, hr', fun heq => ?_, fun heq => ?_⟩
  · exact absurd (heq ▸ htest.1) (Bool.eq_false_iff.mp htest'.1)
  · exact absurd (heq ▸ htest'.2) (Bool.eq_false_iff.mp htest.2)

end OmegaGames
