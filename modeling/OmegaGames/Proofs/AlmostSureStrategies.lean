import OmegaGames.Proofs.Agreement

/-!
# The recorded strategies of the strict player

The player who has to win with probability one gets a region together with decisions. Nothing leads
out of the region while the player follows them, and whatever the opponent chooses, the play ends in a
component that favours the player. Chance keeps all its edges, also those that were out of sight while
the region was being found.
-/
namespace OmegaGames

open Relation

variable {W : Type} {g : Game W} {x : Player} {σ : Strategy}

structure Game.WinsAlmostSurelyBy (g : Game W) (x : Player) (σ : Strategy) (won : NodeSet) : Prop where
  decided : ∀ v ∈ won, g.owner v = x →
    ∃ i t, σ.get v = some i ∧ i < g.degree v ∧ g.succ? v i = some t ∧ t ∈ won
  closed : ∀ v ∈ won, g.owner v ≠ x → ∀ t ∈ g.succs v, t ∈ won
  components : ∀ τ : Strategy, τ.Decides g x.opponent → ∀ C ⊆ won.toSet,
    IsBottomComponent (Inside (g.Plays x σ τ) won.toSet) C → g.Favours C x

namespace Dominion

variable [Scalar W] {won : NodeSet}

/-- The play goes on from every node of a held region, and stays in it. -/
private theorem exists_plays (hx : x ≠ .stochastic) (hg : g.Valid)
    (h : Dominion g x σ (NodeSet.full g.size).toSet won.toSet) {τ : Strategy}
    (hτ : τ.Decides g x.opponent) {u : Nat} (hu : u ∈ won) : ∃ t, g.Plays x σ τ u t := by
  have hlt : u < g.size := NodeSet.mem_full.mp (h.inside hu)
  apply Game.exists_plays hx (hg.succs_ne_nil hlt)
  · intro ho
    obtain ⟨i, t, hi, ht, -⟩ := h.decided u hu ho
    exact ⟨i, t, hi, ht⟩
  · exact hτ.exists_succ? hlt

/-- A region that is held with its decisions is won with probability one by them. -/
theorem winsAlmostSurelyBy (hx : x ≠ .stochastic) (hg : g.Valid)
    (h : Dominion g x σ (NodeSet.full g.size).toSet won.toSet) : g.WinsAlmostSurelyBy x σ won where
  decided v hv ho := by
    obtain ⟨i, t, hi, ht, htw⟩ := h.decided v hv ho
    exact ⟨i, t, hi, g.lt_degree_of_succ? ht, ht, htw⟩
  closed v hv ho t ht := h.closed v hv ho t ht (NodeSet.mem_full.mpr (hg.succ_lt ht))
  components τ hτ C hsub hC := by
    have hstay : ∀ u ∈ won, ∀ v, g.Plays x σ τ u v → v ∈ won := fun u hu v huv =>
      h.mem_of_follows hu huv.1 (NodeSet.mem_full.mpr (hg.succ_lt huv.mem_succs))
    -- Nothing leaves the region, so a component of the region is one of the whole chain.
    have hbottom : IsBottomComponent (g.Plays x σ τ) C := by
      refine { nonempty := hC.nonempty, closed := fun u hu v huv => ?_, connected := fun u hu v hv => ?_ }
      · exact hC.closed u hu v ⟨hsub hu, hstay u (hsub hu) v huv, huv⟩
      · exact ReflTransGen.mono (fun _ _ hab => hab.2.2) _ _ (hC.connected u hu v hv)
    apply h.parity C _ hsub
    exact hbottom.endComponent hx (hsub.trans h.inside) fun u hu => h.exists_plays hx hg hτ (hsub hu)

end Dominion

/-- The recursive solver answers every valid game, and if the decisions of the strict player are asked for,
those that it records win the region of that player with probability one. -/
theorem Recursive.solve_winsAlmostSurelyBy [Scalar W] (s : Recursive) (g : Game W) (q : Query)
    (hg : g.Valid) (hw : q.request.wants q.strict = true) :
    ∃ r σ, s.solve g q = .ok r ∧ r.strategy = some σ ∧
      g.WinsAlmostSurelyBy q.strict σ (r.won q.strict) := by
  have hx := q.strict_ne_stochastic
  have hs := s.settled_full q hg
  have hheld := hs.held q.strict hx (Or.inl q.needsAlmostSure_strict) hw
  have hany : q.request.any = true := by
    cases hq : q.strictEven with
    | true =>
      have heven : q.request.even = true := by simpa [Query.strict, hq, Request.wants] using hw
      simp [Request.any, heven]
    | false =>
      have hodd : q.request.odd = true := by simpa [Query.strict, hq, Request.wants] using hw
      simp [Request.any, hodd]
  refine ⟨_, _, s.solve_eq_ok q hg, if_pos hany, ?_⟩
  apply Dominion.winsAlmostSurelyBy hx hg
  cases hq : q.strictEven with
  | true => simpa [Query.strict, hq, Regions.won, Split.won, Recursive.regions] using hheld
  | false => simpa [Query.strict, hq, Regions.won, Split.won, Recursive.regions] using hheld

/-- Even waits at node 0 or lets chance decide at node 1 whether to come back or to go on to node 2. -/
def Game.patience : Game Rat :=
  ⟨#[⟨.even, 1, [⟨0, 1⟩, ⟨1, 1⟩]⟩, ⟨.stochastic, 1, [⟨0, 1 / 2⟩, ⟨2, 1 / 2⟩]⟩, ⟨.even, 0, [⟨2, 1⟩]⟩]⟩

/-- Even wins all of it by letting chance decide. -/
theorem Recursive.solve_patience_winsAlmostSurelyBy :
    Game.patience.Valid ∧ Request.evenOnly.wants (Query.mk true .evenOnly).strict = true ∧
      ∃ r σ, Recursive.solve ⟨true⟩ Game.patience ⟨true, .evenOnly⟩ = .ok r ∧ r.strategy = some σ ∧
        Game.patience.WinsAlmostSurelyBy .even σ r.even := by
  have hg : Game.patience.Valid := Option.isNone_iff_eq_none.mp (by decide +kernel)
  exact ⟨hg, rfl, Recursive.solve_winsAlmostSurelyBy ⟨true⟩ Game.patience ⟨true, .evenOnly⟩ hg rfl⟩

end OmegaGames
