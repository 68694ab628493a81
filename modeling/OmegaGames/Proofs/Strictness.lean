import OmegaGames.Proofs.AttractorFixedPoints
import OmegaGames.Proofs.Handover
import OmegaGames.Proofs.SolutionViews

/-!
# Strictness without chance

Without chance it makes no difference who has to win with probability one. Nobody leaves a strong attractor
before the target is reached, so it is the weak attractor too, and the recursive solver takes the same steps
for both players.

With Odd strict the gadget solver works on the dual game. It normalises the priorities after the players have
changed places, which makes no difference either as long as there is a priority to count from. Where there is
none, the strict player is given everything.
-/
namespace OmegaGames

variable {W : Type}

/-! ## Attractors -/

namespace Game

variable (g : Game W) (target : NodeSet) {nodes : NodeSet} {x : Player}

/-- Every edge of the opponent inside `nodes` stays in the strong attractor, and chance has none. -/
theorem attractedSurely_strongAttractor (hno : ∀ v < g.size, g.owner v ≠ .stochastic)
    (hx : x ≠ .stochastic) (hn : nodes.range = g.size) :
    g.AttractedSurely target nodes x (g.arena.strongAttractor target nodes x) := by
  obtain ⟨f, hf, h⟩ := g.attraction_strongAttractor target x hn
  rw [← hf]
  refine ⟨h.range, h.inside, ?_, fun u hu ht ho t hst htn => ?_⟩
  · rw [hf]
    exact g.strongAttractor_idem target x hn
  · have hs : g.owner u ≠ .stochastic := hno u (h.range ▸ NodeSet.lt_range hu)
    have hp : g.owner u ≠ x := ho.resolve_left hs ▸ Player.opponent_ne_self hx
    exact ((h.other u hu ht hp hs).2 t hst htn).1

theorem weakAttractor_eq_strongAttractor (hno : ∀ v < g.size, g.owner v ≠ .stochastic)
    (hx : x ≠ .stochastic) (hn : nodes.range = g.size) :
    g.arena.weakAttractor target nodes x = g.arena.strongAttractor target nodes x := by
  obtain ⟨f, hf, h⟩ := g.attraction_strongAttractor target x hn
  have hweak := g.attractedSurely_weakAttractor target hx hn
  have hstrong := g.attractedSurely_strongAttractor target hno hx hn
  refine NodeSet.ext_mem (hweak.range.trans hstrong.range.symm) fun v => ⟨fun hv => ?_, fun hv => ?_⟩
  · rw [← hf]
    exact hweak.mem_near hx (fun _ hu => hu) hweak.inside h hv
  · exact hstrong.mem_of_narrows hx (g.narrows_weakAttractor target hn) hn (fun _ hu => hu) hstrong.inside v hv

end Game

/-! ## The recursive solver -/

namespace Recursive

section Calls

variable {g : Game W} (hno : ∀ v < g.size, g.owner v ≠ .stochastic)

include hno

theorem opponentAttractor_eq_strongAttractor (q : Query) (target : NodeSet) {region : NodeSet} {x : Player}
    (hx : x ≠ .stochastic) (hr : region.range = g.size) :
    opponentAttractor g.arena q target region x = g.arena.strongAttractor target region x := by
  rw [opponentAttractor]
  split
  · exact g.weakAttractor_eq_strongAttractor target hno hx hr
  · rfl

private theorem peel_strictness {solve solve' : NodeSet → Strategy → Split} {request : Request}
    (hsolve : ∀ part σ, part.range = g.size → solve part σ = solve' part σ) (b b' : Bool) {x : Player}
    (hx : x ≠ .stochastic) (target : NodeSet) (rounds : Nat) {region : NodeSet}
    (hr : region.range = g.size) (lost : NodeSet) (σ : Strategy) :
    peel g.arena ⟨b, request⟩ solve x target rounds region lost σ =
      peel g.arena ⟨b', request⟩ solve' x target rounds region lost σ := by
  induction rounds generalizing region lost σ with
  | zero => rfl
  | succ rounds ih =>
    have hxo := Player.opponent_ne_stochastic hx
    rw [peel, peel, hsolve _ σ (by simpa using hr)]
    simp only [opponentAttractor_eq_strongAttractor hno _ _ hxo hr]
    split
    · rfl
    · exact ih (by simpa using hr) _ _

/-- Whoever is strict, a region is split in the same way and with the same decisions. -/
theorem splitRegion_strictness (s : Recursive) (request : Request) (b b' : Bool) (depth : Nat)
    {region : NodeSet} (hr : region.range = g.size) (σ : Strategy) :
    s.splitRegion g.arena ⟨b, request⟩ depth region σ =
      s.splitRegion g.arena ⟨b', request⟩ depth region σ := by
  induction depth generalizing region σ with
  | zero => rfl
  | succ depth ih =>
    rw [splitRegion, splitRegion]
    split
    · rfl
    · split
      · rfl
      · exact peel_strictness hno (fun part σ hpart => ih hpart σ) b b'
          (Player.ofPriority_ne_stochastic _) _ _ hr _ σ

end Calls

/-- In a game without chance the weak attractors are the strong ones, for all sets of nodes and both players.
Hence the recursive solver gives one answer, with the same decisions, whoever is strict. -/
theorem weak_eq_strong_and_solve_eq [Scalar W] (g : Game W) (hno : ∀ v < g.size, g.owner v ≠ .stochastic) :
    (∀ (target nodes : NodeSet) (x : Player), nodes.range = g.size → x ≠ .stochastic →
      g.arena.weakAttractor target nodes x = g.arena.strongAttractor target nodes x) ∧
    (g.Valid → ∀ (s : Recursive) (request : Request),
      ∃ r, ∀ strictEven, s.solve g ⟨strictEven, request⟩ = .ok r) := by
  refine ⟨fun target nodes x hn hx => g.weakAttractor_eq_strongAttractor target hno hx hn, ?_⟩
  intro hg s request
  refine ⟨s.regions g ⟨true, request⟩, fun strictEven => ?_⟩
  rw [s.solve_eq_ok _ hg, regions, regions,
    s.splitRegion_strictness hno request strictEven true (g.size + 1) (NodeSet.range_full g.size)]

end Recursive

/-- Odd can lead from node 4 to node 1, where it wins, by way of node 2, or to node 3, where Even wins. -/
def Game.crossing : Game Rat :=
  ⟨#[⟨.even, 0, [⟨0, 1⟩]⟩, ⟨.odd, 1, [⟨1, 1⟩]⟩, ⟨.odd, 3, [⟨1, 1⟩, ⟨3, 1⟩]⟩, ⟨.even, 2, [⟨3, 1⟩, ⟨2, 1⟩]⟩,
    ⟨.odd, 4, [⟨2, 1⟩, ⟨3, 1⟩]⟩]⟩

/-- Without node 1 Even attracts nodes 2 and 4 to node 3, but not node 0. In the whole game both are won by
Odd, whoever is strict. -/
theorem Recursive.weak_eq_strong_and_solve_crossing_eq :
    (∀ v < Game.crossing.size, Game.crossing.owner v ≠ .stochastic) ∧ Game.crossing.Valid ∧
      (NodeSet.ofList 5 [0, 2, 3, 4]).range = Game.crossing.size ∧
      Game.crossing.arena.strongAttractor (.ofList 5 [3]) (.ofList 5 [0, 2, 3, 4]) .even =
        .ofList 5 [2, 3, 4] ∧
      Game.crossing.arena.weakAttractor (.ofList 5 [3]) (.ofList 5 [0, 2, 3, 4]) .even =
        .ofList 5 [2, 3, 4] ∧
      ∃ r, (∀ strictEven, Recursive.solve ⟨false⟩ Game.crossing ⟨strictEven, .both⟩ = .ok r) ∧
        r.odd = .ofList 5 [1, 2, 4] ∧ r.decision 4 = some 0 := by
  have hno : ∀ v < Game.crossing.size, Game.crossing.owner v ≠ .stochastic := by decide
  have hg : Game.crossing.Valid := Option.isNone_iff_eq_none.mp (by decide +kernel)
  have hn : (NodeSet.ofList 5 [0, 2, 3, 4]).range = Game.crossing.size := NodeSet.range_ofList _ _
  obtain ⟨hattractors, hsolve⟩ := Recursive.weak_eq_strong_and_solve_eq Game.crossing hno
  obtain ⟨r, hr⟩ := hsolve hg ⟨false⟩ .both
  have hstrong : Game.crossing.arena.strongAttractor (.ofList 5 [3]) (.ofList 5 [0, 2, 3, 4]) .even =
      .ofList 5 [2, 3, 4] := by decide +kernel
  refine ⟨hno, hg, hn, hstrong, (hattractors _ _ .even hn (by simp)).trans hstrong, r, hr, ?_⟩
  have htrue := hr true
  rw [Recursive.solve_eq_ok _ _ hg, Except.ok.injEq] at htrue
  rw [← htrue]
  decide +kernel

/-! ## Gadgets -/

/-- A game without chance whose priorities all favour Even is won by Even. -/
theorem IsSolution.eq_of_even [Scalar W] {g : Game W} (hg : g.Valid)
    (hno : ∀ v < g.size, g.owner v ≠ .stochastic) (hp : ∀ v < g.size, g.priority v % 2 = 0)
    {even odd : NodeSet} (h : IsSolution g even odd) : even = .full g.size ∧ odd = .empty g.size := by
  obtain ⟨rfl, rfl⟩ := h.unique hg (Recursive.isSolution_regions hg hno ⟨true⟩ ⟨true, .none⟩)
  cases hleast : Recursive.leastPriority? g.arena.game (.full g.size) with
  | none =>
    have hnone := Recursive.leastPriority?_eq_none_iff.mp hleast
    simp only [Recursive.regions, Recursive.splitRegion, hleast]
    exact ⟨NodeSet.ext_mem (by simp [Game.arena]) fun v => iff_of_false (NodeSet.not_mem_empty _ v) (hnone v), rfl⟩
  | some least =>
    obtain ⟨⟨w, hw, rfl⟩, -⟩ := Recursive.leastPriority?_eq_some hleast
    have heven := hp w (NodeSet.mem_full.mp hw)
    have hside := Recursive.sameSides_of_sameParity ⟨true⟩ g.arena ⟨true, .none⟩ g.size hleast
      (fun v hv => (hp v (NodeSet.mem_full.mp hv)).trans heven.symm) (.blank g.size) (.blank g.size)
    have hplayer : Player.ofPriority (g.arena.game.priority w) = .even := if_pos heven
    rw [hplayer] at hside
    exact hside

namespace Gadget

variable [Scalar W] {g : Game W} {inner : TwoPlayerSolver}

theorem isSolution_of_solveStrict (hno : ∀ v < g.size, g.owner v ≠ .stochastic)
    (hp : ∀ v < g.size, g.priority v ≤ infinitePriority) {request : Request} {r : Regions}
    (h : solveStrict inner g request = .ok r) :
    g.normalize.Valid ∧ IsSolution g.normalize r.even r.odd := by
  obtain ⟨hvalid, -⟩ := (solveStrict_eq_ok_iff ..).mp h
  have hno' : ∀ v < g.normalize.size, g.normalize.owner v ≠ .stochastic := by simpa using hno
  have hp' : ∀ v < g.normalize.size, g.normalize.priority v < infinitePriority := fun v hv =>
    Nat.lt_of_le_of_ne (Game.priority_normalize_le hp (by simpa using hv)) (hvalid.priority_ne hv)
  have hsolve : (QualitativeSolver.gadget inner).solve g.normalize ⟨true, request⟩ = .ok r := by
    rw [← h]
    simp only [QualitativeSolver.solve, solve, if_true, solveStrict, normalize_eq hvalid]
  obtain ⟨hok, herr⟩ := (QualitativeSolver.gadget inner).solve_solution_cases hvalid hno' hp'
    ⟨true, request⟩ (Or.inl rfl)
  refine ⟨hvalid, ?_⟩
  by_cases hroom : (QualitativeSolver.gadget inner).HasRoom g.normalize ⟨true, request⟩
  · obtain ⟨r', hr', hsol⟩ := hok hroom
    obtain rfl := Except.ok.inj (hsolve.symm.trans hr')
    exact hsol
  · cases hsolve.symm.trans (herr hroom)

omit [Scalar W] in
private theorem owner_dual_ne (hno : ∀ v < g.size, g.owner v ≠ .stochastic) :
    ∀ v < g.dual.size, g.dual.owner v ≠ .stochastic := by
  intro v hv
  rw [Game.size_dual] at hv
  rw [Game.owner_dual]
  exact Player.opponent_ne_stochastic (hno v hv)

theorem solveStrict_dual_of_solve {request : Request} {r : Regions}
    (h : solve inner g ⟨false, request⟩ = .ok r) :
    solveStrict inner g.dual request.swapped = .ok r.swapped := by
  cases hr : solveStrict inner g.dual request.swapped with
  | error e => simp [solve, hr, bind, Except.bind] at h
  | ok r' =>
    obtain rfl : r'.swapped = r := by simpa [solve, hr, bind, Except.bind, pure, Except.pure] using h
    rfl

/-- Where no node has a priority, all get priority zero and Even wins. -/
theorem eq_full_of_solveStrict (hno : ∀ v < g.size, g.owner v ≠ .stochastic)
    (hinf : ∀ v < g.size, g.priority v = infinitePriority) {request : Request} {r : Regions}
    (h : solveStrict inner g request = .ok r) : r.even = .full g.size ∧ r.odd = .empty g.size := by
  obtain ⟨hvalid, hsol⟩ := isSolution_of_solveStrict hno (fun v hv => (hinf v hv).le) h
  have hzero : ∀ v < g.normalize.size, g.normalize.priority v % 2 = 0 := by
    intro v hv
    rw [Game.size_normalize] at hv
    rw [Game.priority_normalize_of_all hinf hv]
  have hall := hsol.eq_of_even hvalid (by simpa using hno) hzero
  rwa [Game.size_normalize] at hall

/-- The answers with Even strict and with Odd strict agree if the first one, with the sides exchanged, solves
the normalised dual game too. -/
theorem sides_eq_iff (hno : ∀ v < g.size, g.owner v ≠ .stochastic)
    (hp : ∀ v < g.size, g.priority v ≤ infinitePriority) (r : Regions) {request : Request} {r' : Regions}
    (h : solve inner g ⟨false, request⟩ = .ok r') :
    r.even = r'.even ∧ r.odd = r'.odd ↔ IsSolution g.dual.normalize r.odd r.even := by
  have hp' : ∀ v < g.dual.size, g.dual.priority v ≤ infinitePriority := by
    intro v hv
    rw [Game.size_dual] at hv
    rw [Game.priority_dual hv]
    split
    · exact le_rfl
    · rename_i hfin
      exact Nat.lt_of_le_of_ne (hp v hv) hfin
  obtain ⟨hvalid, hsol⟩ := isSolution_of_solveStrict (owner_dual_ne hno) hp' (solveStrict_dual_of_solve h)
  constructor
  · rintro ⟨heven, hodd⟩
    rw [heven, hodd]
    exact hsol
  · intro hsol'
    obtain ⟨hodd, heven⟩ := hsol'.unique hvalid hsol
    exact ⟨heven, hodd⟩

private theorem priority_cases {p : Nat} (h : p ≤ infinitePriority) (hne : p ≠ Nat.pow 2 64 - 2) :
    p = infinitePriority ∨ p + 1 < infinitePriority := by
  rw [infinitePriority, show Nat.pow 2 64 = 18446744073709551616 from rfl] at *
  omega

/-- Let the gadget solver accept a game without chance with Even strict and with Odd strict. The two answers
agree exactly if the first one, with the sides exchanged, solves the normalised dual game. If no priority is
`2 ^ 64 - 2`, which the dual game would take for a missing one, they agree exactly if some node has a priority
or there are no nodes. If no node has a priority, the strict player is given all of them. -/
theorem solve_strictness_iff (inner : TwoPlayerSolver) (g : Game W)
    (hno : ∀ v < g.size, g.owner v ≠ .stochastic) (hp : ∀ v < g.size, g.priority v ≤ infinitePriority)
    {request request' : Request} {r r' : Regions} (h : solve inner g ⟨true, request⟩ = .ok r)
    (h' : solve inner g ⟨false, request'⟩ = .ok r') :
    (r.even = r'.even ∧ r.odd = r'.odd ↔ IsSolution g.dual.normalize r.odd r.even) ∧
    ((∀ v < g.size, g.priority v ≠ Nat.pow 2 64 - 2) → (r.even = r'.even ∧ r.odd = r'.odd ↔
      g.size = 0 ∨ ∃ v < g.size, g.priority v ≠ infinitePriority)) ∧
    ((∀ v < g.size, g.priority v = infinitePriority) →
      r.even = .full g.size ∧ r.odd = .empty g.size ∧ r'.even = .empty g.size ∧ r'.odd = .full g.size) := by
  have hstrict : solveStrict inner g request = .ok r := h
  have hiff := sides_eq_iff hno hp r h'
  have hall : (∀ v < g.size, g.priority v = infinitePriority) →
      r.even = .full g.size ∧ r.odd = .empty g.size ∧ r'.even = .empty g.size ∧ r'.odd = .full g.size := by
    intro hinf
    have hinf' : ∀ v < g.dual.size, g.dual.priority v = infinitePriority := by
      intro v hv
      rw [Game.size_dual] at hv
      rw [Game.priority_dual hv, if_pos (hinf v hv)]
    obtain ⟨heven, hodd⟩ := eq_full_of_solveStrict hno hinf hstrict
    obtain ⟨hodd', heven'⟩ := eq_full_of_solveStrict (owner_dual_ne hno) hinf' (solveStrict_dual_of_solve h')
    rw [Game.size_dual] at hodd' heven'
    exact ⟨heven, hodd, heven', hodd'⟩
  refine ⟨hiff, fun hlow => ⟨fun hsame => ?_, ?_⟩, hall⟩
  · by_contra hnone
    push Not at hnone
    obtain ⟨hsize, hinf⟩ := hnone
    obtain ⟨heven, -, heven', -⟩ := hall hinf
    -- Node 0 would have to be in the full set and in the empty one.
    have hmem : 0 ∈ NodeSet.full g.size := NodeSet.mem_full.mpr (Nat.pos_of_ne_zero hsize)
    rw [← heven, hsame.1, heven'] at hmem
    exact NodeSet.not_mem_empty _ _ hmem
  · rintro (hsize | hsome)
    · obtain ⟨heven, hodd, heven', hodd'⟩ := hall fun v hv => absurd hv (by omega)
      rw [heven, hodd, heven', hodd', hsize]
      exact ⟨rfl, rfl⟩
    · obtain ⟨hvalid, hsol⟩ := isSolution_of_solveStrict hno hp hstrict
      rw [hiff, Game.normalize_dual (fun v hv => priority_cases (hp v hv) (hlow v hv)) hsome]
      exact hsol.dual hvalid

end Gadget

/-- Even can stay at node 0, which has no priority yet, or go on to node 1. -/
def Game.pending : Game Rat :=
  ⟨#[⟨.even, infinitePriority, [⟨0, 1⟩, ⟨1, 1⟩]⟩, ⟨.odd, 2, [⟨0, 1⟩, ⟨1, 1⟩]⟩, ⟨.odd, infinitePriority, [⟨2, 1⟩]⟩]⟩

/-- Staying at node 0 favours Odd, whoever is strict, since its priority is counted from that of node 1. -/
theorem Gadget.solve_pending_strictness_iff :
    (∀ v < Game.pending.size, Game.pending.owner v ≠ .stochastic) ∧
      (∀ v < Game.pending.size, Game.pending.priority v ≤ infinitePriority) ∧
      (∀ v < Game.pending.size, Game.pending.priority v ≠ Nat.pow 2 64 - 2) ∧
      ∃ r r', Gadget.solve (.lifting ⟨.all, .fifo⟩) Game.pending ⟨true, .both⟩ = .ok r ∧
        Gadget.solve (.lifting ⟨.all, .fifo⟩) Game.pending ⟨false, .none⟩ = .ok r' ∧
        r.even = r'.even ∧ r.odd = r'.odd ∧ 0 ∈ r.even ∧ 2 ∈ r.odd := by
  have hno : ∀ v < Game.pending.size, Game.pending.owner v ≠ .stochastic := by decide
  have hp : ∀ v < Game.pending.size, Game.pending.priority v ≤ infinitePriority := by decide
  have hlow : ∀ v < Game.pending.size, Game.pending.priority v ≠ Nat.pow 2 64 - 2 := by decide
  have hstrict : answers (Gadget.solve (.lifting ⟨.all, .fifo⟩) Game.pending ⟨true, .both⟩)
      (fun r => r.even.contains 0 && r.odd.contains 2) = true := by decide +kernel
  have hlax : answers (Gadget.solve (.lifting ⟨.all, .fifo⟩) Game.pending ⟨false, .none⟩)
      (fun _ => true) = true := by decide +kernel
  obtain ⟨r, hr, htest⟩ := exists_of_answers hstrict
  obtain ⟨r', hr', -⟩ := exists_of_answers hlax
  obtain ⟨heven, hodd⟩ := ((Gadget.solve_strictness_iff _ Game.pending hno hp hr hr').2.1 hlow).mpr
    (Or.inr ⟨1, by decide, by decide⟩)
  rw [Bool.and_eq_true] at htest
  exact ⟨hno, hp, hlow, r, r', hr, hr', heven, hodd, htest.1, htest.2⟩

def Game.unranked : Game Rat := ⟨#[⟨.even, infinitePriority, [⟨0, 1⟩]⟩]⟩

/-- The loop is won by Even if Even is strict, and by Odd if Odd is. -/
theorem Gadget.solve_unranked_sides_ne :
    (∀ v < Game.unranked.size, Game.unranked.owner v ≠ .stochastic) ∧
      ∃ r r', Gadget.solve (.recursive ⟨true⟩) Game.unranked ⟨true, .none⟩ = .ok r ∧
        Gadget.solve (.recursive ⟨true⟩) Game.unranked ⟨false, .none⟩ = .ok r' ∧
        0 ∈ r.even ∧ 0 ∉ r'.even ∧ 0 ∉ r.odd ∧ 0 ∈ r'.odd := by
  have hstrict : answers (Gadget.solve (.recursive ⟨true⟩) Game.unranked ⟨true, .none⟩)
      (fun r => r.even.contains 0 && !r.odd.contains 0) = true := by decide +kernel
  have hlax : answers (Gadget.solve (.recursive ⟨true⟩) Game.unranked ⟨false, .none⟩)
      (fun r => !r.even.contains 0 && r.odd.contains 0) = true := by decide +kernel
  obtain ⟨r, hr, htest⟩ := exists_of_answers hstrict
  obtain ⟨r', hr', htest'⟩ := exists_of_answers hlax
  simp only [Bool.and_eq_true, Bool.not_eq_true', ← Bool.not_eq_true] at htest htest'
  exact ⟨by decide, r, r', hr, hr', htest.1, htest'.1, htest.2, htest'.2⟩

end OmegaGames
