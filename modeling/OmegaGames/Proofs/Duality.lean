import OmegaGames.Proofs.Plays

/-!
# The dual game

The dual game has the same plays with the players in each other's place, and its priorities, one higher,
favour the other player. So a player wins the game where its opponent wins the dual game.
-/
namespace OmegaGames

open Relation

namespace Player

@[simp] theorem opponent_inj {x y : Player} : x.opponent = y.opponent ↔ x = y := by
  cases x <;> cases y <;> simp [opponent]

theorem ofPriority_succ (p : Nat) : ofPriority (p + 1) = (ofPriority p).opponent := by
  rcases Nat.mod_two_eq_zero_or_one p with h | h
  · have h' : (p + 1) % 2 = 1 := by omega
    simp [ofPriority, h, h', opponent]
  · have h' : (p + 1) % 2 = 0 := by omega
    simp [ofPriority, h, h', opponent]

end Player

namespace Game

variable {W : Type} (g : Game W)

@[simp] theorem size_dual : g.dual.size = g.size := by simp [dual, size]

@[simp] theorem edges_dual (v : Nat) : g.dual.edges v = g.edges v := by
  cases h : g.nodes[v]? <;> simp [dual, edges, h]

@[simp] theorem succs_dual (v : Nat) : g.dual.succs v = g.succs v := by simp [succs]

@[simp] theorem degree_dual (v : Nat) : g.dual.degree v = g.degree v := by simp [degree]

@[simp] theorem owner_dual (v : Nat) : g.dual.owner v = (g.owner v).opponent := by
  cases h : g.nodes[v]? <;> simp [dual, owner, h, Player.opponent]

variable {g} [Scalar W]

theorem Valid.priority_dual (hv : g.Valid) {v : Nat} (hlt : v < g.size) :
    g.dual.priority v = g.priority v + 1 := by
  have hne := hv.priority_ne hlt
  obtain ⟨n, hn⟩ := exists_node hlt
  simp only [priority, hn] at hne
  simp [Game.dual, priority, hn, hne]

theorem Valid.dual (hv : g.Valid) (hp : ∀ v < g.size, g.priority v + 1 < infinitePriority) :
    g.dual.Valid := by
  rw [valid_iff]
  intro v hlt
  rw [size_dual] at hlt
  obtain ⟨-, hne, hedges⟩ := valid_iff.mp hv v hlt
  refine ⟨?_, by simpa using hne, fun e he => ?_⟩
  · rw [hv.priority_dual hlt]
    exact (hp v hlt).ne
  · rw [edges_dual] at he
    obtain ⟨ht, hw⟩ := hedges e he
    refine ⟨by simpa using ht, fun hs => hw ?_⟩
    rw [owner_dual] at hs
    exact Player.opponent_inj.mp hs

/-! ## Plays of the dual game -/

variable {x : Player} {σ τ : Strategy}

omit [Scalar W] in
theorem follows_dual : g.dual.Follows x.opponent σ = g.Follows x σ := by
  funext u v
  simp [Follows, succ?]

omit [Scalar W] in
theorem plays_dual : g.dual.Plays x.opponent σ τ = g.Plays x σ τ := by
  funext u v
  rw [Plays, Plays, follows_dual, follows_dual]

omit [Scalar W] in
theorem decides_dual : σ.Decides g.dual x.opponent ↔ σ.Decides g x := by simp [Strategy.Decides]

theorem Valid.favours_dual (hv : g.Valid) {C : Set Nat} (hC : ∀ u ∈ C, u < g.size) :
    g.dual.Favours C x.opponent ↔ g.Favours C x := by
  have himage : g.dual.priority '' C = (· + 1) '' (g.priority '' C) := by
    rw [Set.image_image]
    exact Set.image_congr fun u hu => hv.priority_dual (hC u hu)
  have hleast : ∀ {p}, IsLeast (g.priority '' C) p → IsLeast (g.dual.priority '' C) (p + 1) := by
    intro p hp
    rw [himage]
    refine ⟨⟨p, hp.1, rfl⟩, ?_⟩
    rintro _ ⟨q, hq, rfl⟩
    exact Nat.succ_le_succ (hp.2 hq)
  constructor
  · intro h p hp
    have hsucc := h (p + 1) (hleast hp)
    rwa [Player.ofPriority_succ, Player.opponent_inj] at hsucc
  · intro h p hp
    have hne : C.Nonempty := by
      obtain ⟨u, hu, -⟩ := hp.1
      exact ⟨u, hu⟩
    obtain ⟨q, hq⟩ := exists_isLeast_priority g hne
    rw [hp.unique (hleast hq), Player.ofPriority_succ, Player.opponent_inj]
    exact h q hq

/-- The components that a play reaches consist of nodes of the game. -/
theorem Valid.lt_of_reached (hv : g.Valid) {v u : Nat} (hlt : v < g.size) {C : Set Nat}
    (hC : IsBottomComponent (g.Plays x σ τ) C) (hu : u ∈ C)
    (hvu : ReflTransGen (g.Plays x σ τ) v u) : ∀ w ∈ C, w < g.size := by
  have hclosed : ∀ a ∈ {a | a < g.size}, ∀ b, g.Plays x σ τ a b → b ∈ {a | a < g.size} :=
    fun _ _ _ hab => hv.succ_lt hab.mem_succs
  exact hC.subset_of_closed hu (mem_of_reflTransGen hclosed hlt hvu) hclosed

theorem Valid.winsAlmostSurely_dual (hv : g.Valid) {v : Nat} (hlt : v < g.size) :
    g.dual.WinsAlmostSurely x.opponent v ↔ g.WinsAlmostSurely x v := by
  simp only [WinsAlmostSurely, decides_dual, plays_dual]
  refine exists_congr fun σ => and_congr_right fun _ => forall₂_congr fun τ _ =>
    forall₂_congr fun C hC => forall_congr' fun hreach => ?_
  obtain ⟨u, hu, hvu⟩ := hreach
  exact hv.favours_dual (hv.lt_of_reached hlt hC hu hvu)

theorem Valid.winsPositivelyBy_dual (hv : g.Valid) {v : Nat} (hlt : v < g.size) :
    g.dual.WinsPositivelyBy x.opponent σ v ↔ g.WinsPositivelyBy x σ v := by
  simp only [WinsPositivelyBy, decides_dual, plays_dual]
  refine forall₂_congr fun τ _ => exists_congr fun C => and_congr_right fun hC =>
    and_congr_right fun hreach => ?_
  obtain ⟨u, hu, hvu⟩ := hreach
  exact hv.favours_dual (hv.lt_of_reached hlt hC hu hvu)

end Game

theorem Dominion.dual {W : Type} [Scalar W] {g : Game W} (hg : g.Valid) {x : Player} {σ : Strategy} {won : Set Nat}
    (h : Dominion g x σ (NodeSet.full g.size).toSet won) :
    Dominion g.dual x.opponent σ (NodeSet.full g.dual.size).toSet won where
  inside := by
    rw [Game.size_dual]
    exact h.inside
  decided u hu ho := by
    rw [Game.owner_dual, Player.opponent_inj] at ho
    obtain ⟨i, t, hi, ht, htw⟩ := h.decided u hu ho
    refine ⟨i, t, hi, ?_, htw⟩
    rwa [Game.succ?, Game.succs_dual]
  closed u hu ho t ht hta := by
    rw [Game.owner_dual, ne_eq, Player.opponent_inj] at ho
    rw [Game.succs_dual] at ht
    rw [Game.size_dual] at hta
    exact h.closed u hu ho t ht hta
  parity C hC hsub := by
    have hC' : EndComponent g x σ (NodeSet.full g.size).toSet C := by
      rw [Game.size_dual] at hC
      refine ⟨hC.nonempty, hC.inside, fun u hu hs v hv hva => ?_, ?_, ?_⟩
      · refine hC.chance u hu ?_ v ?_ hva
        · rw [Game.owner_dual, hs]
          rfl
        · rwa [Game.succs_dual]
      · have halive := hC.alive
        rwa [Game.follows_dual] at halive
      · have hconnected := hC.connected
        rwa [Game.follows_dual] at hconnected
    exact (hg.favours_dual fun u hu => NodeSet.mem_full.mp (hC'.inside hu)).mpr (h.parity C hC' hsub)

end OmegaGames
