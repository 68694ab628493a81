import OmegaGames.Proofs.Dominion
import OmegaGames.Proofs.Peeling
import Mathlib.Order.Lattice.Nat

/-!
# Plays of two positional strategies

When both players follow positional strategies, what is left is a finite chain: the play ends with
probability one in a bottom component of it and sees all its nodes infinitely often. A player wins from
a node with probability one if its strategy makes every such component favour it, against every
strategy of the opponent. What a player holds is won so, and the two players hold nothing in common.
-/
namespace OmegaGames

open Relation

variable {W : Type}

def Strategy.Decides (σ : Strategy) (g : Game W) (x : Player) : Prop :=
  ∀ v < g.size, g.owner v = x → ∃ i, σ.get v = some i ∧ i < g.degree v

/-- An edge of the chain in which both players follow their strategies. -/
def Game.Plays (g : Game W) (x : Player) (σ τ : Strategy) (u v : Nat) : Prop :=
  g.Follows x σ u v ∧ g.Follows x.opponent τ u v

/-- The least priority of a set of nodes is a player's. -/
def Game.Favours (g : Game W) (C : Set Nat) (x : Player) : Prop :=
  ∀ p, IsLeast (g.priority '' C) p → Player.ofPriority p = x

/-- A player has a positional strategy such that against every positional strategy of the opponent all
bottom components that the play can reach favour the player. -/
def Game.WinsAlmostSurely (g : Game W) (x : Player) (v : Nat) : Prop :=
  ∃ σ : Strategy, σ.Decides g x ∧ ∀ τ : Strategy, τ.Decides g x.opponent →
    ∀ C, IsBottomComponent (g.Plays x σ τ) C → (∃ u ∈ C, ReflTransGen (g.Plays x σ τ) v u) →
      g.Favours C x

/-- By a strategy a player keeps a positive probability of winning: against every positional strategy of
the opponent the play can reach a bottom component that favours the player. -/
def Game.WinsPositivelyBy (g : Game W) (x : Player) (σ : Strategy) (v : Nat) : Prop :=
  ∀ τ : Strategy, τ.Decides g x.opponent →
    ∃ C, IsBottomComponent (g.Plays x σ τ) C ∧ (∃ u ∈ C, ReflTransGen (g.Plays x σ τ) v u) ∧
      g.Favours C x

theorem Strategy.get_ofFn (n : Nat) (f : Nat → Option Nat) (v : Nat) :
    (Strategy.mk (Array.ofFn fun v : Fin n => f v)).get v = if v < n then f v else none := by
  by_cases h : v < n <;> simp [Strategy.get, Array.getD, h]

theorem exists_isLeast_priority (g : Game W) {C : Set Nat} (h : C.Nonempty) :
    ∃ p, IsLeast (g.priority '' C) p :=
  ⟨_, Nat.sInf_mem (h.image g.priority), fun _ hp => Nat.sInf_le hp⟩

variable {g : Game W} {x : Player} {σ τ : Strategy}

theorem Game.Favours.eq {y : Player} {C : Set Nat} (hne : C.Nonempty) (hx : g.Favours C x)
    (hy : g.Favours C y) : x = y := by
  obtain ⟨p, hp⟩ := exists_isLeast_priority g hne
  exact (hx p hp).symm.trans (hy p hp)

theorem Game.Plays.symm {u v : Nat} (h : g.Plays x σ τ u v) : g.Plays x.opponent τ σ u v := by
  refine ⟨h.2, ?_⟩
  rw [Player.opponent_opponent]
  exact h.1

theorem Game.Plays.mem_succs {u v : Nat} (h : g.Plays x σ τ u v) : v ∈ g.succs u := h.1.mem_succs

theorem Game.exists_plays (hx : x ≠ .stochastic) {u : Nat} (hne : g.succs u ≠ [])
    (hσ : g.owner u = x → ∃ i t, σ.get u = some i ∧ g.succ? u i = some t)
    (hτ : g.owner u = x.opponent → ∃ i t, τ.get u = some i ∧ g.succ? u i = some t) :
    ∃ t, g.Plays x σ τ u t := by
  have hxo : x.opponent ≠ x := Player.opponent_ne_self hx
  by_cases ho : g.owner u = x
  · obtain ⟨i, t, hi, ht⟩ := hσ ho
    refine ⟨t, ⟨i, ht, fun _ => hi⟩, Game.follows_of_mem_succs ?_ (g.mem_succs_of_succ? ht)⟩
    rw [ho]
    exact hxo.symm
  · by_cases ho' : g.owner u = x.opponent
    · obtain ⟨i, t, hi, ht⟩ := hτ ho'
      exact ⟨t, Game.follows_of_mem_succs ho (g.mem_succs_of_succ? ht), i, ht, fun _ => hi⟩
    · obtain ⟨t, ht⟩ := List.exists_mem_of_ne_nil _ hne
      exact ⟨t, Game.follows_of_mem_succs ho ht, Game.follows_of_mem_succs ho' ht⟩

/-- Decisions on some nodes extend to all nodes of a player: elsewhere any decision will do. -/
theorem Strategy.exists_decides_extending [Scalar W] (hv : g.Valid) (A : Set Nat) (f : Nat → Option Nat)
    (hf : ∀ u < g.size, u ∈ A → g.owner u = x → ∃ i, f u = some i ∧ i < g.degree u) :
    ∃ σ : Strategy, σ.Decides g x ∧ ∀ u < g.size, u ∈ A → σ.get u = f u := by
  classical
  let f' : Nat → Option Nat := fun u => if u ∈ A then f u else some 0
  let σ : Strategy := ⟨Array.ofFn fun u : Fin g.size => f' u⟩
  have hget : ∀ u < g.size, σ.get u = f' u := fun u hu => by
    rw [Strategy.get_ofFn g.size f' u, if_pos hu]
  refine ⟨σ, fun u hu ho => ?_, fun u hu huA => ?_⟩
  · rw [hget u hu]
    by_cases huA : u ∈ A
    · obtain ⟨i, hi, hlt⟩ := hf u hu huA ho
      exact ⟨i, by simp [f', huA, hi], hlt⟩
    · refine ⟨0, by simp [f', huA], ?_⟩
      rw [← g.length_succs]
      exact List.length_pos_iff.mpr (hv.succs_ne_nil hu)
  · rw [hget u hu]
    simp [f', huA]

namespace IsBottomComponent

variable {arena C : Set Nat}

theorem swap (h : IsBottomComponent (g.Plays x σ τ) C) :
    IsBottomComponent (g.Plays x.opponent τ σ) C where
  nonempty := h.nonempty
  closed u hu v huv := by
    have hback := huv.symm
    rw [Player.opponent_opponent] at hback
    exact h.closed u hu v hback
  connected u hu v hv := ReflTransGen.mono (fun _ _ => Game.Plays.symm) _ _ (h.connected u hu v hv)

theorem endComponent (h : IsBottomComponent (g.Plays x σ τ) C) (hx : x ≠ .stochastic)
    (hin : C ⊆ arena) (halive : ∀ u ∈ C, ∃ v, g.Plays x σ τ u v) : EndComponent g x σ arena C where
  nonempty := h.nonempty
  inside := hin
  chance u hu hs v hv _ := by
    refine h.closed u hu v ⟨Game.follows_of_mem_succs ?_ hv, Game.follows_of_mem_succs ?_ hv⟩
    · rw [hs]
      exact hx.symm
    · rw [hs]
      exact (Player.opponent_ne_stochastic hx).symm
  alive u hu := by
    obtain ⟨v, huv⟩ := halive u hu
    exact ⟨v, h.closed u hu v huv, huv.1⟩
  connected u hu v hv := reflTransGen_inside_mono (fun _ _ _ hab => hab.1) (h.connected_inside hu hv)

end IsBottomComponent

namespace Dominion

variable {A B : Set Nat}

/-- Both players can hold only disjoint regions: where both stay, a component of their common chain
would favour both of them. -/
theorem disjoint [Scalar W] (hx : x ≠ .stochastic) (hv : g.Valid)
    (hA : Dominion g x σ (NodeSet.full g.size).toSet A)
    (hB : Dominion g x.opponent τ (NodeSet.full g.size).toSet B) {v : Nat} (hvA : v ∈ A) : v ∉ B := by
  intro hvB
  have hsucc : ∀ {u w}, w ∈ g.succs u → w ∈ (NodeSet.full g.size).toSet := fun hw =>
    NodeSet.mem_full.mpr (hv.succ_lt hw)
  have hclosed : ∀ u ∈ A ∩ B, ∀ w, g.Plays x σ τ u w → w ∈ A ∩ B := fun u hu w huw =>
    ⟨hA.mem_of_follows hu.1 huw.1 (hsucc huw.mem_succs),
      hB.mem_of_follows hu.2 huw.2 (hsucc huw.mem_succs)⟩
  have hfin : (A ∩ B).Finite := (Set.finite_lt_nat g.size).subset fun u hu =>
    NodeSet.mem_full.mp (hA.inside hu.1)
  -- In a bottom component of the common chain both players follow their decisions.
  obtain ⟨C, hC, hsub, -⟩ := exists_isBottomComponent hfin hclosed ⟨hvA, hvB⟩
  have halive : ∀ u ∈ C, ∃ w, g.Plays x σ τ u w := by
    intro u hu
    obtain ⟨huA, huB⟩ := hsub hu
    refine Game.exists_plays hx (hv.succs_ne_nil (NodeSet.mem_full.mp (hA.inside huA))) ?_ ?_
    · intro ho
      obtain ⟨i, t, hi, ht, -⟩ := hA.decided u huA ho
      exact ⟨i, t, hi, ht⟩
    · intro ho
      obtain ⟨i, t, hi, ht, -⟩ := hB.decided u huB ho
      exact ⟨i, t, hi, ht⟩
  have hfull : C ⊆ (NodeSet.full g.size).toSet := fun u hu => hA.inside (hsub hu).1
  have hfavx : g.Favours C x :=
    hA.parity C (hC.endComponent hx hfull halive) fun u hu => (hsub hu).1
  have hfavo : g.Favours C x.opponent :=
    hB.parity C (hC.swap.endComponent (Player.opponent_ne_stochastic hx) hfull
      fun u hu => (halive u hu).imp fun w => Game.Plays.symm) fun u hu => (hsub hu).2
  exact Player.opponent_ne_self hx (hfavo.eq hC.nonempty hfavx)

theorem exists_decides [Scalar W] (hv : g.Valid)
    (h : Dominion g x σ (NodeSet.full g.size).toSet A) :
    ∃ σ' : Strategy, σ'.Decides g x ∧ Dominion g x σ' (NodeSet.full g.size).toSet A := by
  obtain ⟨σ', hσ', hsame⟩ := Strategy.exists_decides_extending (x := x) hv A σ.get fun u _ huA ho => by
    obtain ⟨i, t, hi, ht, -⟩ := h.decided u huA ho
    exact ⟨i, hi, g.lt_degree_of_succ? ht⟩
  exact ⟨σ', hσ', h.congr fun u hu => hsame u (NodeSet.mem_full.mp (h.inside hu)) hu⟩

end Dominion

theorem Strategy.Decides.exists_succ? (h : σ.Decides g x) {u : Nat} (hu : u < g.size)
    (ho : g.owner u = x) : ∃ i t, σ.get u = some i ∧ g.succ? u i = some t := by
  obtain ⟨i, hi, hlt⟩ := h u hu ho
  obtain ⟨t, ht⟩ := g.exists_succ?_of_lt_degree hlt
  exact ⟨i, t, hi, ht⟩

namespace Dominion

variable {A : Set Nat}

/-- A held region favours its holder in every bottom component that the play reaches from it. -/
theorem favours [Scalar W] (hx : x ≠ .stochastic) (hv : g.Valid)
    (h : Dominion g x σ (NodeSet.full g.size).toSet A) (hσ : σ.Decides g x)
    (hτ : τ.Decides g x.opponent) {v u : Nat} (hvA : v ∈ A) {C : Set Nat}
    (hC : IsBottomComponent (g.Plays x σ τ) C) (hu : u ∈ C) (hvu : ReflTransGen (g.Plays x σ τ) v u) :
    g.Favours C x := by
  have hclosed : ∀ a ∈ A, ∀ b, g.Plays x σ τ a b → b ∈ A := fun a ha b hab =>
    h.mem_of_follows ha hab.1 (NodeSet.mem_full.mpr (hv.succ_lt hab.mem_succs))
  have hsub : C ⊆ A := hC.subset_of_closed hu (mem_of_reflTransGen hclosed hvA hvu) hclosed
  have hfull : C ⊆ (NodeSet.full g.size).toSet := hsub.trans h.inside
  refine h.parity C (hC.endComponent hx hfull fun a ha => ?_) hsub
  have hlt := NodeSet.mem_full.mp (hfull ha)
  exact Game.exists_plays hx (hv.succs_ne_nil hlt) (hσ.exists_succ? hlt) (hτ.exists_succ? hlt)

theorem winsAlmostSurely [Scalar W] (hx : x ≠ .stochastic) (hv : g.Valid)
    (h : Dominion g x σ (NodeSet.full g.size).toSet A) {v : Nat} (hvA : v ∈ A) :
    g.WinsAlmostSurely x v := by
  obtain ⟨σ', hσ', h'⟩ := h.exists_decides hv
  refine ⟨σ', hσ', fun τ hτ C hC hreach => ?_⟩
  obtain ⟨u, hu, hvu⟩ := hreach
  exact h'.favours hx hv hσ' hτ hvA hC hu hvu

end Dominion

/-- What one player wins with probability one, the other does not win with a positive one. -/
theorem Game.WinsAlmostSurely.not_winsPositivelyBy (hx : x ≠ .stochastic) {v : Nat}
    (h : g.WinsAlmostSurely x v) (hτ : τ.Decides g x.opponent) :
    ¬ g.WinsPositivelyBy x.opponent τ v := by
  intro hpos
  obtain ⟨σ, hσ, hwin⟩ := h
  have hback : ∀ {a b}, g.Plays x.opponent τ σ a b → g.Plays x σ τ a b := by
    intro a b hab
    simpa using hab.symm
  obtain ⟨C, hC, ⟨u, hu, hvu⟩, hfav⟩ := hpos σ (by simpa using hσ)
  have hC' : IsBottomComponent (g.Plays x σ τ) C := by simpa using hC.swap
  have hfavx := hwin τ hτ C hC' ⟨u, hu, ReflTransGen.mono (fun _ _ => hback) _ _ hvu⟩
  exact Player.opponent_ne_self hx (hfav.eq hC.nonempty hfavx)

end OmegaGames
