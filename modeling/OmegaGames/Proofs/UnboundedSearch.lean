import OmegaGames.Proofs.Narrowing

/-!
# Searches without a bound on their steps

The searches for attractors are given as many steps as there are nodes. `Front.Drains` and
`Arena.Narrows` are the same loops without such a bound: they are left only where nothing remains to
be done. The bounds are never in the way, so the searches follow the loops to their ends.
-/
namespace OmegaGames

namespace Front

/-- Works off the found nodes from number `next` on, until there is none left. -/
inductive Drains (preds : Predecessors) (visit : Nat → Front → Nat × Nat → Front) :
    Nat → Front → Front → Prop
  | done {next : Nat} {f : Front} (hend : f.found[next]? = none) : Drains preds visit next f f
  | visit {next v : Nat} {f f' : Front} (hfound : f.found[next]? = some v)
      (hrest : Drains preds visit (next + 1) ((preds.of v).foldl (visit v) f) f') :
      Drains preds visit next f f'

variable {preds : Predecessors} {visit : Nat → Front → Nat × Nat → Front} {next : Nat} {f : Front}

theorem Drains.unique {f' f'' : Front} (h : Drains preds visit next f f')
    (h' : Drains preds visit next f f'') : f' = f'' := by
  induction h with
  | done hend =>
    cases h' with
    | done => rfl
    | visit hfound => cases hend.symm.trans hfound
  | visit hfound _ ih =>
    cases h' with
    | done hend => cases hend.symm.trans hfound
    | visit hfound' hrest =>
      cases hfound.symm.trans hfound'
      exact ih hrest

/-- If no more nodes are found than there are steps, the search is not cut off. -/
theorem drains_drain (steps : Nat) (h : (drain preds visit steps next f).found.size ≤ next + steps) :
    Drains preds visit next f (drain preds visit steps next f) := by
  induction steps generalizing next f with
  | zero => exact .done (Array.getElem?_eq_none (by simpa [drain] using h))
  | succ steps ih =>
    cases hfound : f.found[next]? with
    | none =>
      simp only [drain, hfound]
      exact .done hfound
    | some v =>
      simp only [drain, hfound] at h ⊢
      apply Drains.visit hfound
      apply ih
      omega

end Front

namespace Arena

variable {W : Type}

def Attracts (a : Arena W) (target nodes blocked : NodeSet) (player : Player) (σ : Strategy)
    (f : Front) : Prop :=
  Front.Drains a.preds (fun _ => a.pull nodes blocked player) 0 (a.seed target nodes player σ) f

/-- Removes the escapes of the opponent, until the strong attractor covers what is left. -/
inductive Narrows (a : Arena W) (target : NodeSet) (player : Player) : NodeSet → NodeSet → Prop
  | covered {nodes : NodeSet} {near : Front}
      (hnear : a.Attracts target nodes (.empty 0) player (.blank 0) near)
      (hall : near.reached = nodes) : Narrows a target player nodes nodes
  | escaped {nodes result : NodeSet} {near lost : Front}
      (hnear : a.Attracts target nodes (.empty 0) player (.blank 0) near)
      (hsome : near.reached ≠ nodes)
      (hlost : a.Attracts (nodes.diff near.reached) nodes target player.opponent (.blank 0) lost)
      (hrest : Narrows a target player (nodes.diff lost.reached) result) :
      Narrows a target player nodes result

theorem Narrows.unique {a : Arena W} {target nodes result result' : NodeSet} {player : Player}
    (h : a.Narrows target player nodes result) (h' : a.Narrows target player nodes result') :
    result = result' := by
  induction h with
  | covered hnear hall =>
    cases h' with
    | covered => rfl
    | escaped hnear' hsome =>
      cases hnear.unique hnear'
      exact absurd hall hsome
  | escaped hnear hsome hlost _ ih =>
    cases h' with
    | covered hnear' hall =>
      cases hnear.unique hnear'
      exact absurd hall hsome
    | escaped hnear' _ hlost' hrest =>
      cases hnear.unique hnear'
      cases hlost.unique hlost'
      exact ih hrest

end Arena

namespace Game

variable {W : Type} (g : Game W) (target : NodeSet) {nodes : NodeSet} {player : Player}

theorem attracts_attract (blocked : NodeSet) (σ : Strategy) (hn : nodes.range = g.size) :
    g.arena.Attracts target nodes blocked player σ (g.arena.attract target nodes blocked player σ) := by
  apply Front.drains_drain
  rw [Nat.zero_add]
  exact size_found_attract_le hn

/-- Every round removes a node, so there are rounds enough. -/
private theorem narrows_narrow (rounds : Nat) (hn : nodes.range = g.size) (hsize : nodes.size ≤ rounds) :
    g.arena.Narrows target player nodes (g.arena.narrow target player rounds nodes) := by
  induction rounds generalizing nodes with
  | zero =>
    have hall := g.strongAttractor_of_empty target player hn
      (NodeSet.not_mem_of_size_eq_zero (Nat.le_zero.mp hsize))
    rw [Arena.narrow, hall]
    exact .covered (g.attracts_attract target _ _ hn) hall
  | succ rounds ih =>
    rw [Arena.narrow]
    split
    · rename_i hall
      rw [hall]
      exact .covered (g.attracts_attract target _ _ hn) hall
    · rename_i hsome
      have hnear : Attraction g target nodes (.empty 0) player (.blank 0) _ := attraction_attract hn
      apply Arena.Narrows.escaped (g.attracts_attract target _ _ hn) hsome (g.attracts_attract _ _ _ hn)
      apply ih
      · simpa using hn
      · have hlost : Attraction g (nodes.diff (g.arena.strongAttractor target nodes player)) nodes target
            player.opponent (.blank 0) _ := attraction_attract hn
        exact Nat.le_of_lt_succ (Nat.lt_of_lt_of_le (hnear.size_diff_lt hn hsome hlost) hsize)

theorem narrows_weakAttractor (hn : nodes.range = g.size) :
    g.arena.Narrows target player nodes (g.arena.weakAttractor target nodes player) :=
  g.narrows_narrow target nodes.range hn nodes.size_le_range

end Game
end OmegaGames
