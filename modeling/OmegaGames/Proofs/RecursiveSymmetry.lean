import OmegaGames.Proofs.Agreement

/-!
# The recursive solver from both sides

The dual game has the edges of the game, so its searches are those of the game with the players in each
other's place: they find the same nodes in the same order and record the same decisions. The least
priority of a region is one higher and favours the other player. So the two runs of the solver stay in
step at every depth, with the two sides of each split exchanged.

Whichever player is strict, the solver gives that player only what it wins by the recorded decisions.
When first Even and then Odd is strict, their regions have no node in common, since both players cannot
be right where their decisions are played against each other.
-/
namespace OmegaGames

variable {W : Type}

@[simp] theorem Player.opponent_eq_stochastic {x : Player} : x.opponent = .stochastic ↔ x = .stochastic := by
  cases x <;> simp [opponent]

@[simp] theorem Request.wants_swapped (r : Request) (x : Player) :
    r.swapped.wants x.opponent = r.wants x := by
  cases x <;> rfl

@[simp] theorem Request.any_swapped (r : Request) : r.swapped.any = r.any := Bool.or_comm _ _

@[simp] theorem Query.needsAlmostSure_swapped (q : Query) (x : Player) :
    q.swapped.needsAlmostSure x.opponent = q.needsAlmostSure x := by
  cases x <;> simp [swapped, needsAlmostSure, Player.opponent]

namespace Split

def swapped (s : Split) : Split := ⟨s.odd, s.even, s.strategy⟩

theorem won_swapped {x : Player} (hx : x ≠ .stochastic) (s : Split) :
    s.swapped.won x.opponent = s.won x := by
  cases x with
  | even => rfl
  | odd => rfl
  | stochastic => exact absurd rfl hx

theorem ofSides_opponent {x : Player} (hx : x ≠ .stochastic) (own other : NodeSet) (σ : Strategy) :
    ofSides x.opponent own other σ = (ofSides x own other σ).swapped := by
  cases x with
  | even => rfl
  | odd => rfl
  | stochastic => exact absurd rfl hx

end Split

/-! ## Searches in the dual game -/

namespace Game

variable (g : Game W)

theorem predecessors_dual : g.dual.predecessors = g.predecessors := by
  have hedges : g.dual.placedEdges = g.placedEdges := by
    simp only [placedEdges, size_dual]
    exact List.flatMap_congr fun u _ => by simp only [placedEdgesOf, succs_dual]
  simp only [predecessors, inDegrees, hedges, size_dual]

variable (target nodes blocked : NodeSet) (x : Player) (σ : Strategy)

private theorem seed_dual :
    g.dual.arena.seed target nodes x.opponent σ = g.arena.seed target nodes x σ := by
  have hremaining : (g.dual.arena.seed target nodes x.opponent σ).remaining =
      (g.arena.seed target nodes x σ).remaining := by
    refine Array.ext (by simp [Arena.seed, arena]) fun v _ _ => ?_
    by_cases ho : g.owner v = x ∨ g.owner v = .stochastic <;> simp [Arena.seed, arena, ho]
  simp only [Arena.seed, arena, size_dual] at hremaining ⊢
  rw [hremaining]

private theorem pull_dual (f : Front) (e : Nat × Nat) :
    g.dual.arena.pull nodes blocked x.opponent f e = g.arena.pull nodes blocked x f e := by
  by_cases ho : g.owner e.1 = x <;> simp [Arena.pull, arena, ho]

/-- The opponent's search in the dual game takes the same steps. -/
theorem attract_dual :
    g.dual.arena.attract target nodes blocked x.opponent σ = g.arena.attract target nodes blocked x σ := by
  have hpull : g.dual.arena.pull nodes blocked x.opponent = g.arena.pull nodes blocked x := by
    funext f e
    exact g.pull_dual nodes blocked x f e
  rw [Arena.attract, Arena.attract, g.seed_dual, hpull]
  simp only [arena, predecessors_dual, size_dual]

theorem strongAttractor_dual :
    g.dual.arena.strongAttractor target nodes x.opponent = g.arena.strongAttractor target nodes x := by
  rw [Arena.strongAttractor, Arena.strongAttractor, attract_dual]

theorem recordAttraction_dual :
    g.dual.arena.recordAttraction target nodes x.opponent σ =
      g.arena.recordAttraction target nodes x σ := by
  rw [Arena.recordAttraction, Arena.recordAttraction, attract_dual]

private theorem narrow_dual (rounds : Nat) :
    g.dual.arena.narrow target x.opponent rounds nodes = g.arena.narrow target x rounds nodes := by
  induction rounds generalizing nodes with
  | zero => exact g.strongAttractor_dual target nodes x
  | succ rounds ih => simp only [Arena.narrow, strongAttractor_dual, attract_dual, ih]

theorem weakAttractor_dual :
    g.dual.arena.weakAttractor target nodes x.opponent = g.arena.weakAttractor target nodes x :=
  g.narrow_dual target nodes x nodes.range

end Game

/-! ## Splitting a region of the dual game -/

namespace Recursive

variable {g : Game W} {q : Query}

theorem stayInside_dual (request : Request) (region : NodeSet) (vs : List Nat) (σ : Strategy) :
    stayInside g.dual request.swapped region vs σ = stayInside g request region vs σ := by
  simp only [stayInside, Game.owner_dual, Game.succs_dual, Request.wants_swapped]

theorem recordIfWanted_dual (request : Request) (target attractor : NodeSet) (x : Player) (σ : Strategy) :
    recordIfWanted g.dual.arena request.swapped target attractor x.opponent σ =
      recordIfWanted g.arena request target attractor x σ := by
  simp only [recordIfWanted, Request.wants_swapped, Game.recordAttraction_dual]

theorem opponentAttractor_dual (target region : NodeSet) (x : Player) :
    opponentAttractor g.dual.arena q.swapped target region x.opponent =
      opponentAttractor g.arena q target region x := by
  simp only [opponentAttractor, Query.needsAlmostSure_swapped, Game.weakAttractor_dual,
    Game.strongAttractor_dual]

/-- The rounds of two calls stay in step if the calls about the parts do. -/
private theorem peel_dual {solve solve' : NodeSet → Strategy → Split}
    (hsolve : ∀ part σ, part.range = g.size → solve' part σ = (solve part σ).swapped) {x : Player}
    (hx : x ≠ .stochastic) (target : NodeSet) (rounds : Nat) {region : NodeSet}
    (hr : region.range = g.size) (lost : NodeSet) (σ : Strategy) :
    peel g.dual.arena q.swapped solve' x.opponent target rounds region lost σ =
      (peel g.arena q solve x target rounds region lost σ).swapped := by
  induction rounds generalizing region lost σ with
  | zero => exact Split.ofSides_opponent hx _ _ _
  | succ rounds ih =>
    have hinner := hsolve (region.diff (g.arena.strongAttractor target region x)) σ (by simpa using hr)
    have hxo := Player.opponent_ne_stochastic hx
    rw [peel, peel, Game.strongAttractor_dual, hinner]
    simp only [Split.won_swapped hxo, opponentAttractor_dual]
    split
    · rw [← Split.ofSides_opponent hx]
      exact congrArg _ ((recordIfWanted_dual _ _ _ _ _).trans (congrArg _ (stayInside_dual _ _ _ _)))
    · rw [← ih (by simpa using hr)]
      exact congrArg _ (recordIfWanted_dual _ _ _ _ _)

private theorem splitRegion_of_least (s : Recursive) (g : Game W) (q : Query) (depth : Nat)
    {region : NodeSet} {least : Nat} (h : leastPriority? g region = some least) (σ : Strategy) :
    s.splitRegion g.arena q (depth + 1) region σ =
      if s.sameParityShortcut && region.toList.all fun v => g.priority v % 2 = least % 2 then
        .ofSides (.ofPriority least) region (.empty g.size)
          (stayInside g q.request region region.toList σ)
      else
        peel g.arena q (s.splitRegion g.arena q depth) (.ofPriority least)
          (region.filter fun v => g.priority v = least) (region.range + 1) region (.empty g.size) σ := by
  have hleast : leastPriority? g.arena.game region = some least := h
  simp only [splitRegion, hleast]
  rfl

section Priorities

variable [Scalar W] (hg : g.Valid) {region : NodeSet} (hr : region.range = g.size)

include hg hr

private theorem priority_dual_of_mem {v : Nat} (hv : v ∈ region) : g.dual.priority v = g.priority v + 1 :=
  hg.priority_dual (hr ▸ NodeSet.lt_range hv)

theorem leastPriority?_dual : leastPriority? g.dual region = (leastPriority? g region).map (· + 1) := by
  cases hleast : leastPriority? g region with
  | none => exact leastPriority?_eq_none_iff.mpr (leastPriority?_eq_none_iff.mp hleast)
  | some least =>
    obtain ⟨⟨w, hw, hwl⟩, hle⟩ := leastPriority?_eq_some hleast
    refine List.min?_eq_some_iff.mpr ⟨?_, fun p hp => ?_⟩
    · refine List.mem_map.mpr ⟨w, (NodeSet.mem_toList region w).mpr hw, ?_⟩
      rw [priority_dual_of_mem hg hr hw, hwl]
    · obtain ⟨v, hv, rfl⟩ := List.mem_map.mp hp
      rw [NodeSet.mem_toList] at hv
      rw [priority_dual_of_mem hg hr hv]
      exact Nat.succ_le_succ (hle v hv)

private theorem all_sameParity_dual (least : Nat) :
    (region.toList.all fun v => g.dual.priority v % 2 = (least + 1) % 2) =
      region.toList.all fun v => g.priority v % 2 = least % 2 := by
  rw [Bool.eq_iff_iff, List.all_eq_true, List.all_eq_true]
  refine forall₂_congr fun v hv => ?_
  rw [priority_dual_of_mem hg hr ((NodeSet.mem_toList region v).mp hv), decide_eq_true_eq, decide_eq_true_eq]
  omega

private theorem filter_priority_dual (least : Nat) :
    (region.filter fun v => g.dual.priority v = least + 1) =
      region.filter fun v => g.priority v = least := by
  refine NodeSet.ext_mem (by simp) fun v => ?_
  rw [NodeSet.mem_filter, NodeSet.mem_filter]
  refine and_congr_right fun hv => ?_
  rw [priority_dual_of_mem hg hr hv, decide_eq_true_eq, decide_eq_true_eq, Nat.succ_inj]

end Priorities

variable [Scalar W]

/-- A region of the dual game is split as in the game, with the sides exchanged and the same decisions. -/
theorem splitRegion_dual (s : Recursive) (hg : g.Valid) (depth : Nat) {region : NodeSet}
    (hr : region.range = g.size) (σ : Strategy) :
    s.splitRegion g.dual.arena q.swapped depth region σ =
      (s.splitRegion g.arena q depth region σ).swapped := by
  induction depth generalizing region σ with
  | zero => simp [splitRegion, Split.swapped, Game.arena]
  | succ depth ih =>
    have hleast := leastPriority?_dual hg hr
    cases h : leastPriority? g region with
    | none =>
      rw [h, Option.map_none] at hleast
      simp [splitRegion, Game.arena, h, hleast, Split.swapped]
    | some least =>
      rw [h, Option.map_some] at hleast
      have hx := Player.ofPriority_ne_stochastic least
      rw [splitRegion_of_least s g.dual q.swapped depth hleast, splitRegion_of_least s g q depth h,
        all_sameParity_dual hg hr, filter_priority_dual hg hr, Player.ofPriority_succ, Game.size_dual]
      split
      · rw [← Split.ofSides_opponent hx]
        exact congrArg _ (stayInside_dual _ _ _ _)
      · exact peel_dual (fun part σ hpart => ih hpart σ) hx _ _ hr _ _

theorem regions_dual (s : Recursive) (hg : g.Valid) :
    s.regions g.dual q.swapped = (s.regions g q).swapped := by
  have hsplit := s.splitRegion_dual (q := q) hg (g.size + 1) (NodeSet.range_full g.size) (.blank g.size)
  have hany : q.swapped.request.any = q.request.any := Request.any_swapped q.request
  simp only [regions, Game.size_dual, hsplit, hany]
  rfl

/-- Solving a valid game from the other side, that is its dual game with the other player strict and the
wishes exchanged, gives the same answer with the regions exchanged and with the same decisions. -/
theorem solve_dual_eq_swapped (s : Recursive) (g : Game W) (hg : g.Valid)
    (hp : ∀ v < g.size, g.priority v < Nat.pow 2 64 - 2) (strictEven : Bool) (request : Request) :
    ∃ r, s.solve g ⟨strictEven, request⟩ = .ok r ∧
      s.solve g.dual ⟨!strictEven, request.swapped⟩ = .ok ⟨r.odd, r.even, r.strategy⟩ := by
  have hdual := hg.dual fun v hv => priority_succ_lt (hp v hv)
  refine ⟨_, s.solve_eq_ok _ hg, ?_⟩
  rw [s.solve_eq_ok _ hdual]
  exact congrArg Except.ok (s.regions_dual (q := ⟨strictEven, request⟩) hg)

end Recursive

/-- The gamble, in which chance decides at node 1, seen from Odd. -/
theorem Recursive.solve_gamble_dual_eq_swapped :
    Game.gamble.Valid ∧ (∀ v < Game.gamble.size, Game.gamble.priority v < Nat.pow 2 64 - 2) ∧
      ∃ r, Recursive.solve ⟨false⟩ Game.gamble ⟨false, .evenOnly⟩ = .ok r ∧
        Recursive.solve ⟨false⟩ Game.gamble.dual ⟨true, .oddOnly⟩ = .ok ⟨r.odd, r.even, r.strategy⟩ := by
  have hp : ∀ v < Game.gamble.size, Game.gamble.priority v < Nat.pow 2 64 - 2 := by decide
  exact ⟨Game.valid_gamble, hp,
    Recursive.solve_dual_eq_swapped ⟨false⟩ Game.gamble Game.valid_gamble hp false .evenOnly⟩

/-! ## Both players strict in turn -/

/-- What Even gets when it has to win with probability one it also gets when Odd has to, in every valid
game and whatever the settings and wishes of the two calls. No node is given to both players by turns as
won with probability one. -/
theorem Recursive.solve_strict_even_subset [Scalar W] (g : Game W) (hg : g.Valid) (s s' : Recursive)
    (request request' : Request) :
    ∃ r r', s.solve g ⟨true, request⟩ = .ok r ∧ s'.solve g ⟨false, request'⟩ = .ok r' ∧
      ∀ v ∈ r.even, v ∈ r'.even ∧ v ∉ r'.odd := by
  obtain ⟨σ, hs⟩ := s.exists_settled_regions ⟨true, request⟩ hg
  obtain ⟨τ, hs'⟩ := s'.exists_settled_regions ⟨false, request'⟩ hg
  refine ⟨_, _, s.solve_eq_ok _ hg, s'.solve_eq_ok _ hg, fun v hv => ?_⟩
  have heven : Dominion g .even σ (NodeSet.full g.size).toSet (s.regions g ⟨true, request⟩).even.toSet :=
    hs.held .even (by simp) (Or.inl rfl) rfl
  have hodd : Dominion g .odd τ (NodeSet.full g.size).toSet (s'.regions g ⟨false, request'⟩).odd.toSet :=
    hs'.held .odd (by simp) (Or.inl rfl) rfl
  -- Each strict player holds its region against every play of the other, so against `σ` and `τ` too.
  have hnot : v ∉ (s'.regions g ⟨false, request'⟩).odd := heven.disjoint (by simp) hg hodd hv
  have hsplit := (hs'.mem .even (by simp) v).mp (heven.inside hv)
  exact ⟨hsplit.resolve_right hnot, hnot⟩

/-- Chance leads from node 0 to node 1, where Even wins, or to node 2, where Odd does. -/
def Game.verge : Game Rat :=
  ⟨#[⟨.stochastic, 2, [⟨1, 1 / 2⟩, ⟨2, 1 / 2⟩]⟩, ⟨.even, 0, [⟨1, 1⟩]⟩, ⟨.odd, 1, [⟨2, 1⟩]⟩]⟩

/-- Node 0 goes to the player who need not win with probability one. -/
theorem Recursive.solve_verge_strict_even_subset :
    Game.verge.Valid ∧ ∃ r r', Recursive.solve ⟨true⟩ Game.verge ⟨true, .both⟩ = .ok r ∧
      Recursive.solve ⟨true⟩ Game.verge ⟨false, .both⟩ = .ok r' ∧
      (∀ v ∈ r.even, v ∈ r'.even ∧ v ∉ r'.odd) ∧ 1 ∈ r.even ∧ 0 ∉ r.even ∧ 0 ∈ r'.even := by
  have hg : Game.verge.Valid := Option.isNone_iff_eq_none.mp (by decide +kernel)
  obtain ⟨r, r', hr, hr', h⟩ := Recursive.solve_strict_even_subset Game.verge hg ⟨true⟩ ⟨true⟩ .both .both
  refine ⟨hg, r, r', hr, hr', h, ?_⟩
  rw [Recursive.solve_eq_ok _ _ hg, Except.ok.injEq] at hr hr'
  rw [← hr, ← hr']
  decide +kernel

end OmegaGames
