import OmegaGames.Proofs.Splitting
import Mathlib.Data.List.Chain

/-!
# The recorded strategies win

In a game without chance a region that is held by recorded decisions is won by them: every cycle of
the graph in which the winner follows its decisions and the opponent keeps all edges has a least
priority that favours the winner. The recursive solver records such decisions for both players.
-/
namespace OmegaGames

open Relation

variable {W : Type}

/-- The nodes of a closed walk: each leads to the next one and the last one to the first. -/
def IsCycle (step : Nat → Nat → Prop) : List Nat → Prop
  | [] => False
  | v :: vs => List.IsChain step (v :: (vs ++ [v]))

structure Game.WinsBy (g : Game W) (x : Player) (σ : Strategy) (won : NodeSet) : Prop where
  decided : ∀ v ∈ won, g.owner v = x →
    ∃ i t, σ.get v = some i ∧ i < g.degree v ∧ g.succ? v i = some t ∧ t ∈ won
  closed : ∀ v ∈ won, g.owner v = x.opponent → ∀ t ∈ g.succs v, t ∈ won
  cycles : ∀ c, IsCycle (Inside (g.Follows x σ) won.toSet) c →
    ∀ p, (c.map g.priority).min? = some p → Player.ofPriority p = x

section Cycle

variable {step : Nat → Nat → Prop}

/-- Along a walk from `a` to `z` every node leads on, and lies between its ends. -/
private theorem walk_between {a z : Nat} {l : List Nat} (h : List.IsChain step (a :: (l ++ [z]))) :
    ∀ b ∈ a :: l, (∃ d ∈ l ++ [z], step b d) ∧ ReflTransGen step a b ∧ ReflTransGen step b z := by
  induction l generalizing a with
  | nil =>
    have haz : step a z := by simpa using h
    intro b hb
    obtain rfl := List.mem_singleton.mp hb
    exact ⟨⟨z, by simp, haz⟩, .refl, .single haz⟩
  | cons c l ih =>
    rw [List.cons_append, List.isChain_cons_cons] at h
    obtain ⟨hac, hrest⟩ := h
    intro b hb
    rcases List.mem_cons.mp hb with rfl | hb
    · obtain ⟨-, -, hcz⟩ := ih hrest c List.mem_cons_self
      exact ⟨⟨c, by simp, hac⟩, .refl, .head hac hcz⟩
    · obtain ⟨⟨d, hd, hbd⟩, hcb, hbz⟩ := ih hrest b hb
      exact ⟨⟨d, List.mem_cons_of_mem c hd, hbd⟩, .head hac hcb, hbz⟩

theorem IsCycle.connected {c : List Nat} (h : IsCycle step c) :
    (∀ u ∈ c, ∃ v ∈ c, step u v) ∧
      ∀ u ∈ c, ∀ v ∈ c, ReflTransGen (Inside step {w | w ∈ c}) u v := by
  cases c with
  | nil => exact absurd h id
  | cons a l =>
    have hmem : ∀ {b}, b ∈ a :: (l ++ [a]) → b ∈ a :: l := by
      intro b hb
      simpa [or_comm, or_assoc] using hb
    have hin : List.IsChain (Inside step {w | w ∈ a :: l}) (a :: (l ++ [a])) :=
      List.IsChain.imp_of_mem_imp (fun b d hb hd hbd => ⟨hmem hb, hmem hd, hbd⟩) h
    refine ⟨fun u hu => ?_, fun u hu v hv => ?_⟩
    · obtain ⟨⟨d, hd, hud⟩, -⟩ := walk_between h u hu
      exact ⟨d, hmem (List.mem_cons_of_mem a hd), hud⟩
    · obtain ⟨-, -, hua⟩ := walk_between hin u hu
      obtain ⟨-, hav, -⟩ := walk_between hin v hv
      exact hua.trans hav

end Cycle

/-- Without chance the nodes of a cycle are an end component. -/
private theorem IsCycle.endComponent {g : Game W} {x : Player} {σ : Strategy} {arena won : Set Nat}
    {c : List Nat} (hno : ∀ v ∈ arena, g.owner v ≠ .stochastic) (hw : won ⊆ arena)
    (h : IsCycle (Inside (g.Follows x σ) won) c) :
    EndComponent g x σ arena {v | v ∈ c} ∧ {v | v ∈ c} ⊆ won := by
  obtain ⟨hnext, hconn⟩ := h.connected
  have hsub : {v | v ∈ c} ⊆ won := by
    intro v hv
    obtain ⟨w, -, hvw⟩ := hnext v hv
    exact hvw.1
  refine ⟨{ nonempty := ?_, inside := hsub.trans hw, chance := ?_, alive := ?_, connected := ?_ }, hsub⟩
  · cases c with
    | nil => exact absurd h id
    | cons a l => exact ⟨a, List.mem_cons_self⟩
  · intro u hu hs
    exact absurd hs (hno u (hw (hsub hu)))
  · intro u hu
    obtain ⟨v, hv, huv⟩ := hnext u hu
    exact ⟨v, hv, huv.2.2⟩
  · intro u hu v hv
    exact reflTransGen_inside_mono (fun _ _ _ hab => hab.2.2) (hconn u hu v hv)

theorem Dominion.winsBy {g : Game W} {x : Player} {σ : Strategy} {won : NodeSet}
    (hx : x ≠ .stochastic) (hc : g.isClosed = true) (hno : ∀ v < g.size, g.owner v ≠ .stochastic)
    (h : Dominion g x σ (NodeSet.full g.size).toSet won.toSet) : g.WinsBy x σ won where
  decided v hv ho := by
    obtain ⟨i, t, hi, ht, htw⟩ := h.decided v hv ho
    exact ⟨i, t, hi, g.lt_degree_of_succ? ht, ht, htw⟩
  closed v hv ho t ht := by
    refine h.closed v hv ?_ t ht (NodeSet.mem_full.mpr (g.isClosed_iff.mp hc v t ht))
    rw [ho]
    exact Player.opponent_ne_self hx
  cycles c hcyc p hp := by
    have hno' : ∀ v ∈ (NodeSet.full g.size).toSet, g.owner v ≠ .stochastic := fun v hv =>
      hno v (NodeSet.mem_full.mp hv)
    obtain ⟨hec, hsub⟩ := hcyc.endComponent hno' h.inside
    refine h.parity _ hec hsub p ?_
    obtain ⟨hmem, hle⟩ := List.min?_eq_some_iff.mp hp
    obtain ⟨v, hv, hvp⟩ := List.mem_map.mp hmem
    refine ⟨⟨v, hv, hvp⟩, ?_⟩
    rintro _ ⟨w, hw, rfl⟩
    exact hle _ (List.mem_map.mpr ⟨w, hw, rfl⟩)

/-- The recursive solver splits the nodes of every valid game without chance, and the decisions it
records win both regions, whoever has to win with probability one. -/
theorem Recursive.solve_winsBy [Scalar W] (s : Recursive) (g : Game W) (strictEven : Bool)
    (hv : g.Valid) (hno : ∀ v < g.size, g.owner v ≠ .stochastic) :
    ∃ r σ, s.solve g ⟨strictEven, .both⟩ = .ok r ∧ r.strategy = some σ ∧
      (∀ v < g.size, v ∈ r.even ∨ v ∈ r.odd) ∧ (∀ v ∈ r.even, v ∉ r.odd) ∧
      g.WinsBy .even σ r.even ∧ g.WinsBy .odd σ r.odd := by
  have hs := s.settled_full ⟨strictEven, .both⟩ hv
  refine ⟨_, _, s.solve_eq_ok _ hv, rfl, ?_, ?_, ?_, ?_⟩
  · intro v hvs
    exact (hs.mem .even (by simp) v).mp (NodeSet.mem_full.mpr hvs)
  · exact hs.disjoint .even (by simp)
  · exact (hs.held .even (by simp) (Or.inr hno) rfl).winsBy (by simp) hv.isClosed hno
  · exact (hs.held .odd (by simp) (Or.inr hno) rfl).winsBy (by simp) hv.isClosed hno

/-- Even wins nodes 0 and 2 by turning away from node 1, where Odd stays. -/
def Game.fork (W : Type) [Scalar W] : Game W :=
  let one : W := Scalar.one
  ⟨#[⟨.even, 2, [⟨1, one⟩, ⟨2, one⟩]⟩, ⟨.odd, 1, [⟨0, one⟩, ⟨1, one⟩]⟩, ⟨.odd, 0, [⟨0, one⟩, ⟨2, one⟩]⟩]⟩

theorem Recursive.solve_fork_winsBy :
    (Game.fork Rat).Valid ∧ (∀ v < (Game.fork Rat).size, (Game.fork Rat).owner v ≠ .stochastic) ∧
      ∃ r σ, (Recursive.mk true).solve (Game.fork Rat) ⟨false, .both⟩ = .ok r ∧ r.strategy = some σ ∧
        (∀ v < (Game.fork Rat).size, v ∈ r.even ∨ v ∈ r.odd) ∧ (∀ v ∈ r.even, v ∉ r.odd) ∧
        (Game.fork Rat).WinsBy .even σ r.even ∧ (Game.fork Rat).WinsBy .odd σ r.odd := by
  have hv : (Game.fork Rat).Valid := rfl
  have hno : ∀ v < (Game.fork Rat).size, (Game.fork Rat).owner v ≠ .stochastic := by decide
  exact ⟨hv, hno, Recursive.solve_winsBy ⟨true⟩ (Game.fork Rat) false hv hno⟩

end OmegaGames
