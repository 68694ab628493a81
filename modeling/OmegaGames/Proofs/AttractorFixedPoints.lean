import OmegaGames.Proofs.UnboundedSearch
import Mathlib.Order.Bounds.Basic

/-!
# Attractors as fixed points

The strong attractor is the least set that is closed under the rules of attraction, and the decisions
recorded on it lead down to the target. The search for it counts how many edges a node still misses;
`Arena.attract?` is the same search with checked counters, which fails where a counter would have to go
below zero. It never fails.

The weak attractor is the greatest set that is covered by its own strong attractor and that neither the
opponent nor chance can leave before the target is reached. Every such set survives each round of the
search: its nodes are attracted inside of what is left, so the opponent has no escape to start from, and
no node of it is drawn to an escape.
-/
namespace OmegaGames

variable {W : Type}

/-! ## Counters that do not go below zero -/

def Front.drain? (preds : Predecessors) (visit : Nat → Front → Nat × Nat → Option Front) :
    Nat → Nat → Front → Option Front
  | 0, _, f => some f
  | steps + 1, next, f =>
    match f.found[next]? with
    | none => some f
    | some v => ((preds.of v).foldlM (visit v) f).bind (drain? preds visit steps (next + 1))

namespace Arena

/-- Takes in an edge as `pull` does, and fails if it would have to count down from zero. -/
def pull? (a : Arena W) (nodes blocked : NodeSet) (player : Player) (f : Front) (e : Nat × Nat) :
    Option Front :=
  if e.1 ∈ nodes ∧ e.1 ∉ f.reached ∧ e.1 ∉ blocked ∧ f.missing e.1 = 0 then none
  else some (a.pull nodes blocked player f e)

def attract? (a : Arena W) (target nodes blocked : NodeSet) (player : Player) (σ : Strategy) :
    Option Front :=
  (a.seed target nodes player σ).drain? a.preds (fun _ => a.pull? nodes blocked player) a.game.size 0

end Arena

namespace Pulled

variable {g : Game W} {target nodes blocked : NodeSet} {player : Player} {σ : Strategy}
  {es : List (Nat × Nat)} {f : Front} {u i v : Nat}

/-- A waiting node with an edge into the reached set still misses an edge. -/
theorem missing_pos (h : Pulled g target nodes blocked player σ es f) (he : g.succ? u i = some v)
    (hv : v ∈ f.reached) (hu : u ∈ nodes) (hr : u ∉ f.reached) (hb : u ∉ blocked) :
    0 < f.missing u := by
  obtain ⟨-, hpos⟩ := h.waiting u hu hr hb
  refine Nat.pos_of_ne_zero (hpos ?_)
  rw [Game.needed]
  split
  · exact Nat.one_ne_zero
  · have hmem : v ∈ (g.succs u).filter nodes.contains :=
      List.mem_filter.mpr ⟨g.mem_succs_of_succ? he, h.inside v hv⟩
    exact (List.length_pos_of_mem hmem).ne'

theorem pull?_eq_some (h : Pulled g target nodes blocked player σ es f) (he : g.succ? u i = some v)
    (hv : v ∈ f.reached) :
    g.arena.pull? nodes blocked player f (u, i) = some (g.arena.pull nodes blocked player f (u, i)) := by
  refine if_neg ?_
  rintro ⟨hu, hr, hb, hzero⟩
  exact (h.missing_pos he hv hu hr hb).ne' hzero

theorem foldlM_pull?_eq_some (h : Pulled g target nodes blocked player σ es f) (hv : v ∈ f.reached)
    (new : List (Nat × Nat)) (hnew : ∀ u i, (u, i) ∈ new → g.succ? u i = some v)
    (hd : (es ++ new).Nodup) :
    new.foldlM (g.arena.pull? nodes blocked player) f =
      some (new.foldl (g.arena.pull nodes blocked player) f) := by
  induction new generalizing es f with
  | nil => rfl
  | cons e new ih =>
    obtain ⟨u, i⟩ := e
    have he := hnew u i List.mem_cons_self
    have hfresh : (u, i) ∉ es := fun hmem =>
      (List.nodup_append.mp hd).2.2 _ hmem _ List.mem_cons_self rfl
    have hstep := h.pull he hv hfresh
    have hprefix := Arena.found_prefix_pull g.arena nodes blocked player f (u, i)
    rw [List.foldlM_cons, h.pull?_eq_some he hv, List.foldl_cons]
    refine ih hstep (h.mem_reached_of_prefix hstep hprefix hv) (fun w j hw => ?_) ?_
    · exact hnew w j (List.mem_cons_of_mem _ hw)
    · rwa [← List.append_cons]

theorem drain?_eq_some (steps next : Nat)
    (h : Pulled g target nodes blocked player σ
      ((f.found.toList.take next).flatMap g.predecessors.of) f) :
    Front.drain? g.predecessors (fun _ => g.arena.pull? nodes blocked player) steps next f =
      some (Front.drain g.predecessors (fun _ => g.arena.pull nodes blocked player) steps next f) := by
  induction steps generalizing next f with
  | zero => rfl
  | succ steps ih =>
    cases hfound : f.found[next]? with
    | none => simp only [Front.drain?, Front.drain, hfound]
    | some v =>
      have hget : f.found.toList[next]? = some v := by simpa using hfound
      have hmem : v ∈ f.found.toList := List.mem_of_getElem? hget
      have hedges : ∀ u i, (u, i) ∈ g.predecessors.of v → g.succ? u i = some v :=
        fun u i hui => (g.mem_predecessors_of (h.lt_size hmem)).mp hui
      have hfold := h.foldlM_pull?_eq_some ((h.mem_found v).mp hmem) _ hedges (h.nodup_step hget)
      obtain ⟨f', hf', hnext⟩ := h.visit hget
      rw [hf'] at hfold
      simp only [Front.drain?, Front.drain, hfound, hfold, hf', Option.bind_some]
      exact ih (next + 1) hnext

end Pulled

/-- No counter of a search goes below zero. -/
theorem Game.attract?_eq_some (g : Game W) (target : NodeSet) {nodes : NodeSet} (blocked : NodeSet)
    (player : Player) (σ : Strategy) (hn : nodes.range = g.size) :
    g.arena.attract? target nodes blocked player σ =
      some (g.arena.attract target nodes blocked player σ) := by
  have hseed : Pulled g target nodes blocked player σ [] (g.arena.seed target nodes player σ) :=
    Pulled.seed hn
  exact Pulled.drain?_eq_some g.size 0 (by simpa using hseed)

/-! ## The strong attractor -/

/-- A part of `nodes` that holds the target and every node that `x` can draw into it: a node of `x` or of
chance by one edge, and a node of the opponent by all its edges inside `nodes`, if there are any. -/
structure Game.Absorbing (g : Game W) (target nodes : NodeSet) (x : Player) (A : Set Nat) : Prop where
  seeded : ∀ v ∈ nodes, v ∈ target → v ∈ A
  inside : ∀ v ∈ A, v ∈ nodes
  drawn : ∀ u ∈ nodes, g.owner u = x ∨ g.owner u = .stochastic → (∃ t ∈ g.succs u, t ∈ A) → u ∈ A
  forced : ∀ u ∈ nodes, g.owner u = x.opponent → (∃ t ∈ g.succs u, t ∈ nodes) →
    (∀ t ∈ g.succs u, t ∈ nodes → t ∈ A) → u ∈ A

/-- A rank on an attractor that goes down, until the target is reached, along the decisions of `x`, along
all edges of the opponent inside `nodes` and along some edge of chance. -/
structure Game.LeadsDown (g : Game W) (target nodes : NodeSet) (x : Player) (σ : Strategy)
    (attractor : NodeSet) (rank : Nat → Nat) : Prop where
  own : ∀ u ∈ attractor, u ∉ target → g.owner u = x →
    ∃ i t, σ.get u = some i ∧ g.succ? u i = some t ∧ t ∈ attractor ∧ rank t < rank u
  other : ∀ u ∈ attractor, u ∉ target → g.owner u = x.opponent →
    (∃ t ∈ g.succs u, t ∈ nodes) ∧ ∀ t ∈ g.succs u, t ∈ nodes → t ∈ attractor ∧ rank t < rank u
  chance : ∀ u ∈ attractor, u ∉ target → g.owner u = .stochastic →
    ∃ t ∈ g.succs u, t ∈ attractor ∧ rank t < rank u

namespace Player

theorem ne_of_eq_opponent {x y : Player} (hy : y ≠ .stochastic) (h : x = y.opponent) :
    x ≠ y ∧ x ≠ .stochastic :=
  ⟨h ▸ opponent_ne_self hy, h ▸ opponent_ne_stochastic hy⟩

theorem eq_opponent_of_ne {x y : Player} (hy : y ≠ .stochastic) (hxy : x ≠ y) (hx : x ≠ .stochastic) :
    x = y.opponent :=
  (eq_opponent_or_stochastic hy hxy).resolve_right hx

end Player

namespace Attraction

variable {g : Game W} {target nodes : NodeSet} {x : Player} {σ : Strategy} {f : Front}

theorem isLeast (hx : x ≠ .stochastic) (h : Attraction g target nodes (.empty 0) x σ f) :
    IsLeast {A | g.Absorbing target nodes x A} f.reached.toSet := by
  have hfree : ∀ u, u ∉ NodeSet.empty 0 := NodeSet.not_mem_empty 0
  refine ⟨⟨h.seeded, h.inside, ?drawn, ?forced⟩, fun A hA v hv => ?least⟩
  case drawn =>
    rintro u hu ho ⟨t, ht, htr⟩
    exact h.mem_of_drawn hu (hfree u) ho ht htr
  case forced =>
    intro u hu ho hex hall
    obtain ⟨hp, hs⟩ := Player.ne_of_eq_opponent hx ho
    exact h.mem_of_forced hu (hfree u) hp hs hex hall
  case least =>
    refine h.subset_of_closed (B := (· ∈ A)) hA.seeded ?_ ?_ hv
    · intro u hu _ ho t ht htA
      exact hA.drawn u hu ho ⟨t, ht, htA⟩
    · intro u hu _ hp hs hex hall
      exact hA.forced u hu (Player.eq_opponent_of_ne hx hp hs) hex hall

end Attraction

namespace Game

variable (g : Game W) (target : NodeSet) {nodes : NodeSet} {x : Player}

/-- The order in which the recording search finds the nodes is such a rank. -/
theorem exists_leadsDown (hx : x ≠ .stochastic) (hn : nodes.range = g.size) {σ : Strategy}
    (hσ : σ.size = g.size) :
    ∃ rank, g.LeadsDown target nodes x
      (g.arena.recordAttraction target (g.arena.strongAttractor target nodes x) x σ)
      (g.arena.strongAttractor target nodes x) rank := by
  obtain ⟨near, hnear, hfound⟩ := g.attraction_strongAttractor target x hn
  obtain ⟨f, hf, hstrategy, hrec⟩ := g.attraction_recordAttraction target x (hnear ▸ hfound.range)
    (g.strongAttractor_idem target x hn) σ
  rw [← hnear] at hf hstrategy hrec ⊢
  rw [← hstrategy]
  refine ⟨f.rank, ?own, ?other, ?chance⟩
  case own =>
    intro u hu ht ho
    obtain ⟨i, t, hi, htr, hlt, hget⟩ := hrec.own u (hf ▸ hu) ht ho
    have husize : u < σ.size := hσ ▸ hfound.range ▸ NodeSet.lt_range hu
    exact ⟨i, t, hget husize, hi, hf ▸ htr, hlt⟩
  case other =>
    intro u hu ht ho
    obtain ⟨hp, hs⟩ := Player.ne_of_eq_opponent hx ho
    obtain ⟨hex, hall⟩ := hfound.other u hu ht hp hs
    refine ⟨hex, fun t hst htn => ?_⟩
    -- All edges inside `nodes` stay in the attractor, where the recording search has seen them.
    have htr := (hall t hst htn).1
    exact ⟨htr, ((hrec.other u (hf ▸ hu) ht hp hs).2 t hst htr).2⟩
  case chance =>
    intro u hu ht ho
    obtain ⟨t, hst, htr, hlt⟩ := hrec.chance u (hf ▸ hu) ht ho
    exact ⟨t, hst, hf ▸ htr, hlt⟩

/-- In every game, also with dead ends and parallel edges, the search for a strong attractor comes to its
end without a counter below zero. What it reaches is the least set closed under the rules of attraction,
and the decisions recorded on it go down to the target by a rank. -/
theorem strongAttractor_least_and_ranked (hx : x ≠ .stochastic) (hn : nodes.range = g.size) :
    IsLeast {A | g.Absorbing target nodes x A} (g.arena.strongAttractor target nodes x).toSet ∧
      (∃ f, g.arena.Attracts target nodes (.empty 0) x (.blank 0) f ∧
        g.arena.attract? target nodes (.empty 0) x (.blank 0) = some f ∧
        f.reached = g.arena.strongAttractor target nodes x) ∧
      ∀ σ : Strategy, σ.size = g.size → ∃ rank, g.LeadsDown target nodes x
        (g.arena.recordAttraction target (g.arena.strongAttractor target nodes x) x σ)
        (g.arena.strongAttractor target nodes x) rank := by
  obtain ⟨f, hf, h⟩ := g.attraction_strongAttractor target x hn
  refine ⟨hf ▸ h.isLeast hx, ⟨_, ?_, ?_, rfl⟩, fun σ hσ => g.exists_leadsDown target hx hn hσ⟩
  · exact g.attracts_attract target _ _ hn
  · exact g.attract?_eq_some target _ x _ hn

end Game

/-- Two edges lead from node 0 to node 1 and one leads to node 2, where Odd stays. Chance decides at node 3
between nodes 1 and 2, Even comes to it from node 4, and node 5 is a dead end. -/
def Game.junction : Game Rat :=
  ⟨#[⟨.odd, 0, [⟨1, 1⟩, ⟨1, 1⟩, ⟨2, 1⟩]⟩, ⟨.even, 0, [⟨1, 1⟩]⟩, ⟨.odd, 1, [⟨2, 1⟩]⟩,
    ⟨.stochastic, 0, [⟨1, 1 / 2⟩, ⟨2, 1 / 2⟩]⟩, ⟨.even, 1, [⟨3, 1⟩, ⟨0, 1⟩]⟩, ⟨.odd, 1, []⟩]⟩

/-- Without node 2 both parallel edges have to be counted before node 0 is attracted. -/
theorem Game.strongAttractor_junction_least_and_ranked :
    (NodeSet.ofList 6 [0, 1, 3, 4, 5]).range = Game.junction.size ∧
      Game.junction.arena.strongAttractor (.ofList 6 [1]) (.ofList 6 [0, 1, 3, 4, 5]) .even =
        .ofList 6 [0, 1, 3, 4] ∧
      IsLeast {A | Game.junction.Absorbing (.ofList 6 [1]) (.ofList 6 [0, 1, 3, 4, 5]) .even A}
        (NodeSet.ofList 6 [0, 1, 3, 4]).toSet ∧
      ∃ rank, Game.junction.LeadsDown (.ofList 6 [1]) (.ofList 6 [0, 1, 3, 4, 5]) .even
        (Game.junction.arena.recordAttraction (.ofList 6 [1]) (.ofList 6 [0, 1, 3, 4]) .even (.blank 6))
        (.ofList 6 [0, 1, 3, 4]) rank := by
  have hn : (NodeSet.ofList 6 [0, 1, 3, 4, 5]).range = Game.junction.size := NodeSet.range_ofList _ _
  have hA : Game.junction.arena.strongAttractor (.ofList 6 [1]) (.ofList 6 [0, 1, 3, 4, 5]) .even =
      .ofList 6 [0, 1, 3, 4] := by decide +kernel
  obtain ⟨hleast, -, hrank⟩ :=
    Game.junction.strongAttractor_least_and_ranked (.ofList 6 [1]) (x := .even) (by simp) hn
  simp only [hA] at hleast hrank
  exact ⟨hn, hA, hleast, hrank (.blank 6) (Strategy.size_blank 6)⟩

/-! ## The weak attractor -/

/-- A part of `nodes` that is covered by its own strong attractor and that neither the opponent of `x` nor
chance can leave before the target is reached. -/
structure Game.AttractedSurely (g : Game W) (target nodes : NodeSet) (x : Player) (Y : NodeSet) :
    Prop where
  range : Y.range = g.size
  inside : ∀ v ∈ Y, v ∈ nodes
  covered : g.arena.strongAttractor target Y x = Y
  closed : ∀ u ∈ Y, u ∉ target → g.owner u = .stochastic ∨ g.owner u = x.opponent →
    ∀ t ∈ g.succs u, t ∈ nodes → t ∈ Y

theorem Arena.Attracts.attraction {g : Game W} {target nodes blocked : NodeSet} {x : Player}
    {σ : Strategy} {f : Front} (h : g.arena.Attracts target nodes blocked x σ f)
    (hn : nodes.range = g.size) : Attraction g target nodes blocked x σ f := by
  rw [Front.Drains.unique h (g.attracts_attract target blocked σ hn)]
  exact attraction_attract hn

namespace Game.AttractedSurely

variable {g : Game W} {target nodes rest Y : NodeSet} {x : Player} {σ τ : Strategy} {near lost : Front}

private theorem exists_attraction (hY : g.AttractedSurely target nodes x Y) :
    ∃ f, f.reached = Y ∧ Attraction g target Y (.empty 0) x (.blank 0) f := by
  obtain ⟨f, hf, h⟩ := g.attraction_strongAttractor target x hY.range
  exact ⟨f, hf.trans hY.covered, h⟩

/-- What is attracted inside of `Y` is attracted inside of every larger part of `nodes`, since the opponent
has no more edges there. -/
theorem mem_near (hx : x ≠ .stochastic) (hY : g.AttractedSurely target nodes x Y)
    (hrest : ∀ v ∈ rest, v ∈ nodes) (hsub : ∀ v ∈ Y, v ∈ rest)
    (hnear : Attraction g target rest (.empty 0) x σ near) {v : Nat} (hv : v ∈ Y) :
    v ∈ near.reached := by
  have hfree : ∀ u, u ∉ NodeSet.empty 0 := NodeSet.not_mem_empty 0
  obtain ⟨f, rfl, hinner⟩ := hY.exists_attraction
  refine hinner.subset_of_closed (B := (· ∈ near.reached)) (fun u hu => hnear.seeded u (hsub u hu)) ?_ ?_ hv
  · intro u hu _ ho t ht htr
    exact hnear.mem_of_drawn (hsub u hu) (hfree u) ho ht htr
  · intro u hu _ hp hs hex hall
    by_cases ht : u ∈ target
    · exact hnear.seeded u (hsub u hu) ht
    · have hclosed := hY.closed u hu ht (Or.inr (Player.eq_opponent_of_ne hx hp hs))
      refine hnear.mem_of_forced (hsub u hu) (hfree u) hp hs ?_ fun t hst htr => ?_
      · obtain ⟨t, hst, htY⟩ := hex
        exact ⟨t, hst, hsub t htY⟩
      · exact hall t hst (hclosed t hst (hrest t htr))

/-- The opponent draws no node of `Y` to an escape: its own nodes and those of chance have no edge out of
`Y`, and each node of `x` has one that stays. -/
private theorem not_mem_lost (hx : x ≠ .stochastic) (hY : g.AttractedSurely target nodes x Y)
    (hrest : ∀ v ∈ rest, v ∈ nodes) (hsub : ∀ v ∈ Y, v ∈ rest)
    (hnear : Attraction g target rest (.empty 0) x σ near)
    (hlost : Attraction g (rest.diff near.reached) rest target x.opponent τ lost) :
    ∀ v ∈ lost.reached, v ∉ Y := by
  intro v hv
  refine (hlost.subset_of_closed (B := fun w => w ∈ rest ∧ w ∉ Y) ?_ ?_ ?_ hv).2
  · intro u hu hd
    exact ⟨hu, fun huY => (NodeSet.mem_diff.mp hd).2 (hY.mem_near hx hrest hsub hnear huY)⟩
  · rintro u hu hb ho t ht ⟨htr, htY⟩
    exact ⟨hu, fun huY => htY (hY.closed u huY hb ho.symm t ht (hrest t htr))⟩
  · intro u hu hb hp hs _ hall
    refine ⟨hu, fun huY => ?_⟩
    have hown : g.owner u = x := (Player.eq_or_eq_opponent hs hx).resolve_right hp
    obtain ⟨f, rfl, hinner⟩ := hY.exists_attraction
    obtain ⟨i, t, hi, htY, -⟩ := hinner.own u huY hb hown
    exact (hall t (g.mem_succs_of_succ? hi) (hsub t htY)).2 htY

/-- Every such set survives all rounds. -/
theorem mem_of_narrows (hx : x ≠ .stochastic) (hY : g.AttractedSurely target nodes x Y)
    {result : NodeSet} (h : g.arena.Narrows target x rest result) (hr : rest.range = g.size)
    (hrest : ∀ v ∈ rest, v ∈ nodes) (hsub : ∀ v ∈ Y, v ∈ rest) : ∀ v ∈ Y, v ∈ result := by
  induction h with
  | covered => exact hsub
  | escaped hnear _ hlost _ ih =>
    have hkept := hY.not_mem_lost hx hrest hsub (hnear.attraction hr) (hlost.attraction hr)
    refine ih (by simpa using hr) (fun v hv => hrest v (NodeSet.mem_diff.mp hv).1) fun v hv => ?_
    exact NodeSet.mem_diff.mpr ⟨hsub v hv, fun hvl => hkept v hvl hv⟩

end Game.AttractedSurely

namespace Game

variable (g : Game W) (target : NodeSet) {nodes : NodeSet} {x : Player}

theorem attractedSurely_weakAttractor (hx : x ≠ .stochastic) (hn : nodes.range = g.size) :
    g.AttractedSurely target nodes x (g.arena.weakAttractor target nodes x) where
  range := (g.kept_weakAttractor target hx hn).range
  inside := (g.kept_weakAttractor target hx hn).inside
  covered := g.strongAttractor_weakAttractor target hx hn
  closed u hu ht ho := by
    refine (g.kept_weakAttractor target hx hn).closed u hu ht ?_
    rcases ho with ho | ho
    · exact ho ▸ hx.symm
    · exact ho ▸ Player.opponent_ne_self hx

/-- In every game the rounds for a weak attractor come to an end, and they end with the greatest set that is
attracted surely. It holds all nodes of the target. -/
theorem weakAttractor_greatest (hx : x ≠ .stochastic) (hn : nodes.range = g.size) :
    (∀ result, g.arena.Narrows target x nodes result ↔ result = g.arena.weakAttractor target nodes x) ∧
      g.AttractedSurely target nodes x (g.arena.weakAttractor target nodes x) ∧
      (∀ Y, g.AttractedSurely target nodes x Y → ∀ v ∈ Y, v ∈ g.arena.weakAttractor target nodes x) ∧
      ∀ v ∈ nodes, v ∈ target → v ∈ g.arena.weakAttractor target nodes x := by
  have hnarrows : g.arena.Narrows target x nodes (g.arena.weakAttractor target nodes x) :=
    g.narrows_weakAttractor target hn
  refine ⟨fun result => ⟨fun h => h.unique hnarrows, fun h => h ▸ hnarrows⟩,
    g.attractedSurely_weakAttractor target hx hn, fun Y hY => ?_, (g.kept_weakAttractor target hx hn).seeded⟩
  exact hY.mem_of_narrows hx hnarrows hn (fun _ hv => hv) hY.inside

end Game

/-- Even has a chance to reach node 1 from node 4, but reaches it with probability one only from node 1
itself. -/
theorem Game.weakAttractor_junction_greatest :
    (NodeSet.full 6).range = Game.junction.size ∧
      4 ∈ Game.junction.arena.strongAttractor (.ofList 6 [1]) (.full 6) .even ∧
      Game.junction.arena.weakAttractor (.ofList 6 [1]) (.full 6) .even = .ofList 6 [1] ∧
      Game.junction.AttractedSurely (.ofList 6 [1]) (.full 6) .even (.ofList 6 [1]) ∧
      ∀ Y, Game.junction.AttractedSurely (.ofList 6 [1]) (.full 6) .even Y →
        ∀ v ∈ Y, v ∈ NodeSet.ofList 6 [1] := by
  have hn : (NodeSet.full 6).range = Game.junction.size := NodeSet.range_full 6
  have hR : Game.junction.arena.weakAttractor (.ofList 6 [1]) (.full 6) .even = .ofList 6 [1] := by
    decide +kernel
  obtain ⟨-, hsure, hgreatest, -⟩ :=
    Game.junction.weakAttractor_greatest (.ofList 6 [1]) (x := .even) (by simp) hn
  rw [hR] at hsure hgreatest
  exact ⟨hn, by decide +kernel, hR, hsure, hgreatest⟩

end OmegaGames
