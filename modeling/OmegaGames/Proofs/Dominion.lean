import OmegaGames.Strategy
import OmegaGames.Proofs.Components
import OmegaGames.Proofs.Edges
import Mathlib.Order.Bounds.Basic

/-!
# Regions that a player holds

A player holds a region by a strategy if the play cannot leave it and if no end component inside it
favours the opponent. An end component is a set of nodes in which the play can stay forever with
positive probability while visiting all of them: chance cannot leave it, and every node leads to every
other one.

Everything is relative to a set of nodes, the arena, and edges that leave the arena do not count. This
lets regions be put together: a region held in what another one leaves over, a region with the nodes
attracted to it, and the nodes from which the best priority is reached with the rest.
-/
namespace OmegaGames

open Relation

variable {W : Type}

/-- An edge of the graph in which a player follows its decisions. -/
def Game.Follows (g : Game W) (x : Player) (σ : Strategy) (u v : Nat) : Prop :=
  ∃ i, g.succ? u i = some v ∧ (g.owner u = x → σ.get u = some i)

/-- A part of the arena in which the play can stay and see every node infinitely often while `x`
follows its decisions. -/
structure EndComponent (g : Game W) (x : Player) (σ : Strategy) (arena C : Set Nat) : Prop where
  nonempty : C.Nonempty
  inside : C ⊆ arena
  chance : ∀ u ∈ C, g.owner u = .stochastic → ∀ v ∈ g.succs u, v ∈ arena → v ∈ C
  alive : ∀ u ∈ C, ∃ v ∈ C, g.Follows x σ u v
  connected : ∀ u ∈ C, ∀ v ∈ C, ReflTransGen (Inside (g.Follows x σ) C) u v

/-- A part of the arena that `x` holds by its decisions. -/
structure Dominion (g : Game W) (x : Player) (σ : Strategy) (arena won : Set Nat) : Prop where
  inside : won ⊆ arena
  decided : ∀ u ∈ won, g.owner u = x → ∃ i t, σ.get u = some i ∧ g.succ? u i = some t ∧ t ∈ won
  closed : ∀ u ∈ won, g.owner u ≠ x → ∀ t ∈ g.succs u, t ∈ arena → t ∈ won
  parity : ∀ C, EndComponent g x σ arena C → C ⊆ won → ∀ p, IsLeast (g.priority '' C) p →
    Player.ofPriority p = x

namespace Game

variable {g : Game W} {x : Player} {σ : Strategy} {u v : Nat}

theorem Follows.mem_succs (h : g.Follows x σ u v) : v ∈ g.succs u := by
  obtain ⟨i, hi, -⟩ := h
  exact g.mem_succs_of_succ? hi

theorem follows_of_mem_succs (ho : g.owner u ≠ x) (h : v ∈ g.succs u) : g.Follows x σ u v := by
  obtain ⟨i, hi⟩ := (g.mem_succs_iff u v).mp h
  exact ⟨i, hi, fun hx => absurd hx ho⟩

theorem Follows.eq_of_decided {i t : Nat} (h : g.Follows x σ u v) (ho : g.owner u = x)
    (hi : σ.get u = some i) (ht : g.succ? u i = some t) : v = t := by
  obtain ⟨j, hj, hd⟩ := h
  have hij : j = i := Option.some.inj ((hd ho).symm.trans hi)
  subst hij
  exact Option.some.inj (hj.symm.trans ht)

theorem Follows.congr {σ' : Strategy} (he : σ'.get u = σ.get u) (h : g.Follows x σ u v) :
    g.Follows x σ' u v := by
  obtain ⟨i, hi, hd⟩ := h
  exact ⟨i, hi, fun ho => he.trans (hd ho)⟩

end Game

namespace EndComponent

variable {g : Game W} {x : Player} {σ : Strategy} {arena C : Set Nat}

theorem congr {σ' : Strategy} (h : EndComponent g x σ arena C) (he : ∀ u ∈ C, σ'.get u = σ.get u) :
    EndComponent g x σ' arena C where
  nonempty := h.nonempty
  inside := h.inside
  chance := h.chance
  alive u hu := by
    obtain ⟨v, hv, huv⟩ := h.alive u hu
    exact ⟨v, hv, huv.congr (he u hu)⟩
  connected u hu v hv :=
    reflTransGen_inside_mono (fun a ha _ hab => hab.congr (he a ha)) (h.connected u hu v hv)

/-- Chance has fewer edges to care about in a smaller arena. -/
theorem shrink (h : EndComponent g x σ arena C) {arena' : Set Nat} (hC : C ⊆ arena')
    (hsub : arena' ⊆ arena) : EndComponent g x σ arena' C :=
  { h with
    inside := hC
    chance := fun u hu hs v hv hva => h.chance u hu hs v hv (hsub hva) }

/-- An end component that meets a closed set lies in it. -/
theorem subset_of_closed (h : EndComponent g x σ arena C) {A : Set Nat}
    (hA : ∀ u ∈ C, u ∈ A → ∀ v ∈ C, g.Follows x σ u v → v ∈ A) {w : Nat} (hw : w ∈ C) (hwA : w ∈ A) :
    C ⊆ A := by
  intro v hv
  have hwv := h.connected w hw v hv
  induction hwv with
  | refl => exact hwA
  | tail _ hab ih => exact hA _ hab.1 (ih hab.1) _ hab.2.1 hab.2.2

/-- An end component does not meet a set in which a rank goes down to a target that it avoids. -/
theorem not_mem_of_rank (h : EndComponent g x σ arena C) {A T : Set Nat} (rank : Nat → Nat)
    (hA : A ⊆ arena) (hT : ∀ u ∈ C, u ∉ T)
    (hown : ∀ u ∈ A, u ∉ T → g.owner u = x → ∃ i t, σ.get u = some i ∧ g.succ? u i = some t ∧
      t ∈ A ∧ rank t < rank u)
    (hchance : ∀ u ∈ A, u ∉ T → g.owner u = .stochastic → ∃ t ∈ g.succs u, t ∈ A ∧ rank t < rank u)
    (hother : ∀ u ∈ A, u ∉ T → g.owner u ≠ x → g.owner u ≠ .stochastic →
      ∀ t ∈ g.succs u, t ∈ C → t ∈ A ∧ rank t < rank u) : ∀ u ∈ C, u ∉ A := by
  intro u hu huA
  induction hr : rank u using Nat.strong_induction_on generalizing u with
  | _ n ih =>
    subst hr
    obtain ⟨v, hv, huv⟩ := h.alive u hu
    by_cases ho : g.owner u = x
    · obtain ⟨i, t, hi, ht, htA, hlt⟩ := hown u huA (hT u hu) ho
      obtain rfl := huv.eq_of_decided ho hi ht
      exact ih _ hlt v hv htA rfl
    · by_cases hs : g.owner u = .stochastic
      · obtain ⟨t, ht, htA, hlt⟩ := hchance u huA (hT u hu) hs
        exact ih _ hlt t (h.chance u hu hs t ht (hA htA)) htA rfl
      · obtain ⟨hvA, hlt⟩ := hother u huA (hT u hu) ho hs v huv.mem_succs hv
        exact ih _ hlt v hv hvA rfl

end EndComponent

namespace Dominion

variable {g : Game W} {x : Player} {σ : Strategy} {arena won : Set Nat}

theorem empty : Dominion g x σ arena ∅ where
  inside := Set.empty_subset _
  decided _ hu := absurd hu (Set.notMem_empty _)
  closed _ hu := absurd hu (Set.notMem_empty _)
  parity C hC hsub := by
    obtain ⟨v, hv⟩ := hC.nonempty
    exact absurd (hsub hv) (Set.notMem_empty _)

theorem congr {σ' : Strategy} (h : Dominion g x σ arena won) (he : ∀ u ∈ won, σ'.get u = σ.get u) :
    Dominion g x σ' arena won where
  inside := h.inside
  decided u hu ho := by
    obtain ⟨i, t, hi, ht, htw⟩ := h.decided u hu ho
    exact ⟨i, t, (he u hu).trans hi, ht, htw⟩
  closed := h.closed
  parity C hC hsub := h.parity C (hC.congr fun u hu => (he u (hsub hu)).symm) hsub

theorem mem_of_follows (h : Dominion g x σ arena won) {u v : Nat} (hu : u ∈ won)
    (huv : g.Follows x σ u v) (hv : v ∈ arena) : v ∈ won := by
  by_cases ho : g.owner u = x
  · obtain ⟨i, t, hi, ht, htw⟩ := h.decided u hu ho
    rwa [huv.eq_of_decided ho hi ht]
  · exact h.closed u hu ho v huv.mem_succs hv

private theorem subset_of_meets (h : Dominion g x σ arena won) {C : Set Nat}
    (hC : EndComponent g x σ arena C) {w : Nat} (hw : w ∈ C) (hww : w ∈ won) : C ⊆ won :=
  hC.subset_of_closed (fun _ _ huw _ hv huv => h.mem_of_follows huw huv (hC.inside hv)) hw hww

/-- A region held in a smaller arena is held in a larger one into which only `x` itself can leave. -/
theorem enlarge (h : Dominion g x σ arena won) {arena' : Set Nat} (hsub : arena ⊆ arena')
    (htrap : ∀ u ∈ won, g.owner u ≠ x → ∀ t ∈ g.succs u, t ∈ arena' → t ∈ arena) :
    Dominion g x σ arena' won where
  inside := h.inside.trans hsub
  decided := h.decided
  closed u hu ho t ht hta := h.closed u hu ho t ht (htrap u hu ho t ht hta)
  parity C hC hCw := h.parity C (hC.shrink (hCw.trans h.inside) hsub) hCw

/-- What is held in the rest of the arena adds to what is held already: chance may leave the rest, but
only into the region held before. -/
theorem union (h : Dominion g x σ arena won) {more : Set Nat}
    (hm : Dominion g x σ (arena \ won) more) : Dominion g x σ arena (won ∪ more) where
  inside := Set.union_subset h.inside (hm.inside.trans Set.sdiff_subset)
  decided u hu ho := by
    rcases hu with hu | hu
    · obtain ⟨i, t, hi, ht, htw⟩ := h.decided u hu ho
      exact ⟨i, t, hi, ht, Or.inl htw⟩
    · obtain ⟨i, t, hi, ht, htm⟩ := hm.decided u hu ho
      exact ⟨i, t, hi, ht, Or.inr htm⟩
  closed u hu ho t ht hta := by
    rcases hu with hu | hu
    · exact Or.inl (h.closed u hu ho t ht hta)
    · by_cases htw : t ∈ won
      · exact Or.inl htw
      · exact Or.inr (hm.closed u hu ho t ht ⟨hta, htw⟩)
  parity C hC hsub := by
    by_cases hmeet : ∃ w ∈ C, w ∈ won
    · obtain ⟨w, hw, hww⟩ := hmeet
      exact h.parity C hC (h.subset_of_meets hC hw hww)
    · have hmore : C ⊆ more := by
        intro v hv
        rcases hsub hv with hvw | hvm
        · exact absurd ⟨v, hv, hvw⟩ hmeet
        · exact hvm
      exact hm.parity C (hC.shrink (hmore.trans hm.inside) Set.sdiff_subset) hmore

/-- The nodes attracted to a held region with probability one are held too. -/
theorem attract (h : Dominion g x σ arena won) {A : Set Nat} (rank : Nat → Nat) (hw : won ⊆ A)
    (hA : A ⊆ arena)
    (hown : ∀ u ∈ A, u ∉ won → g.owner u = x → ∃ i t, σ.get u = some i ∧ g.succ? u i = some t ∧
      t ∈ A ∧ rank t < rank u)
    (hchance : ∀ u ∈ A, u ∉ won → g.owner u = .stochastic → ∃ t ∈ g.succs u, t ∈ A ∧ rank t < rank u)
    (hother : ∀ u ∈ A, u ∉ won → g.owner u ≠ x → g.owner u ≠ .stochastic →
      ∀ t ∈ g.succs u, t ∈ A → rank t < rank u)
    (hclosed : ∀ u ∈ A, u ∉ won → g.owner u ≠ x → ∀ t ∈ g.succs u, t ∈ arena → t ∈ A) :
    Dominion g x σ arena A where
  inside := hA
  decided u hu ho := by
    by_cases huw : u ∈ won
    · obtain ⟨i, t, hi, ht, htw⟩ := h.decided u huw ho
      exact ⟨i, t, hi, ht, hw htw⟩
    · obtain ⟨i, t, hi, ht, htA, -⟩ := hown u hu huw ho
      exact ⟨i, t, hi, ht, htA⟩
  closed u hu ho t ht hta := by
    by_cases huw : u ∈ won
    · exact hw (h.closed u huw ho t ht hta)
    · exact hclosed u hu huw ho t ht hta
  parity C hC hsub := by
    by_cases hmeet : ∃ w ∈ C, w ∈ won
    · obtain ⟨w, hwC, hww⟩ := hmeet
      exact h.parity C hC (h.subset_of_meets hC hwC hww)
    · have hnone := hC.not_mem_of_rank rank hA (fun u hu huw => hmeet ⟨u, hu, huw⟩) hown hchance
        fun u hu huw ho hs t ht htC => ⟨hsub htC, hother u hu huw ho hs t ht (hsub htC)⟩
      obtain ⟨v, hv⟩ := hC.nonempty
      exact absurd (hsub hv) (hnone v hv)

/-- A player holds the whole arena if it stays in it, reaches the best priority from some nodes and
holds the others by themselves. -/
theorem of_best (best near : Set Nat) {c : Nat} (rank : Nat → Nat)
    (hc : Player.ofPriority c = x) (hleast : ∀ u ∈ arena, c ≤ g.priority u)
    (hbest : ∀ u ∈ best, g.priority u = c) (hna : near ⊆ arena)
    (hrest : Dominion g x σ (arena \ near) (arena \ near))
    (hstay : ∀ u ∈ best, g.owner u = x → ∃ i t, σ.get u = some i ∧ g.succ? u i = some t ∧ t ∈ arena)
    (hown : ∀ u ∈ near, u ∉ best → g.owner u = x → ∃ i t, σ.get u = some i ∧
      g.succ? u i = some t ∧ t ∈ near ∧ rank t < rank u)
    (hchance : ∀ u ∈ near, u ∉ best → g.owner u = .stochastic →
      ∃ t ∈ g.succs u, t ∈ near ∧ rank t < rank u)
    (hother : ∀ u ∈ near, u ∉ best → g.owner u ≠ x → g.owner u ≠ .stochastic →
      ∀ t ∈ g.succs u, t ∈ arena → t ∈ near ∧ rank t < rank u) : Dominion g x σ arena arena where
  inside := le_refl _
  decided u hu ho := by
    by_cases hub : u ∈ best
    · exact hstay u hub ho
    · by_cases hun : u ∈ near
      · obtain ⟨i, t, hi, ht, htn, -⟩ := hown u hun hub ho
        exact ⟨i, t, hi, ht, hna htn⟩
      · obtain ⟨i, t, hi, ht, htr⟩ := hrest.decided u ⟨hu, hun⟩ ho
        exact ⟨i, t, hi, ht, htr.1⟩
  closed _ _ _ _ _ hta := hta
  parity C hC hsub p hp := by
    by_cases hmeet : ∃ w ∈ C, w ∈ best
    · obtain ⟨w, hw, hwb⟩ := hmeet
      have hcp : IsLeast (g.priority '' C) c := by
        refine ⟨⟨w, hw, hbest w hwb⟩, ?_⟩
        rintro _ ⟨u, hu, rfl⟩
        exact hleast u (hsub hu)
      rwa [hp.unique hcp]
    · have hnone := hC.not_mem_of_rank rank hna (fun u hu hub => hmeet ⟨u, hu, hub⟩) hown hchance
        fun u hu hub ho hs t ht htC => hother u hu hub ho hs t ht (hsub htC)
      have hin : C ⊆ arena \ near := fun u hu => ⟨hsub hu, hnone u hu⟩
      exact hrest.parity C (hC.shrink hin Set.sdiff_subset) hin p hp

/-- A player holds an arena in which all priorities favour it and in which it can stay. -/
theorem of_sameParity (hpar : ∀ u ∈ arena, Player.ofPriority (g.priority u) = x)
    (hstay : ∀ u ∈ arena, g.owner u = x → ∃ i t, σ.get u = some i ∧ g.succ? u i = some t ∧ t ∈ arena) :
    Dominion g x σ arena arena where
  inside := le_refl _
  decided := hstay
  closed _ _ _ _ _ hta := hta
  parity C _ hsub p hp := by
    obtain ⟨⟨u, hu, rfl⟩, -⟩ := hp
    exact hpar u (hsub hu)

end Dominion
end OmegaGames
