import OmegaGames.Proofs.GadgetLayout
import OmegaGames.Proofs.Plays

/-!
# Regions of the gadget game and of the game

What Even holds in the gadget game it holds in the game, and where Odd holds the gadget game it keeps a
positive probability of winning the game. Both follow from one argument: a connected part of the game in
which the wrong player is favoured would give such a part of the gadget game. A step from a stochastic
node becomes a detour through its gadget. The detour either sees a priority that decides for the same
player, or it leads to any of the successors, in particular to one that is closer to a chosen node.
-/
namespace OmegaGames

open Relation

variable {W : Type}

/-! ## Detours -/

section Detour

variable {G : Game W} {x : Player} {σ : Strategy} {won : Set Nat}

/-- A held region has no part in which every node leads to a low priority and all low priorities favour
the opponent. -/
theorem Dominion.not_trapped (hD : Dominion G x σ (NodeSet.full G.size).toSet won)
    (hno : ∀ v < G.size, G.owner v ≠ .stochastic) {S : Set Nat} (hS : S ⊆ won) (m : Nat)
    (halive : ∀ u ∈ S, ∃ v ∈ S, G.Follows x σ u v)
    (hlow : ∀ u ∈ S, ∃ v, ReflTransGen (Inside (G.Follows x σ) S) u v ∧ G.priority v ≤ m)
    (hpar : ∀ u ∈ S, G.priority u ≤ m → Player.ofPriority (G.priority u) ≠ x) (u : Nat) : u ∉ S := by
  intro hu
  have hrange : ∀ v ∈ S, v < G.size := fun v hv => NodeSet.mem_full.mp (hD.inside (hS hv))
  have hfin : S.Finite := (Set.finite_lt_nat G.size).subset hrange
  have hclosed : ∀ a ∈ S, ∀ b, Inside (G.Follows x σ) S a b → b ∈ S := fun a _ b hab => hab.2.1
  obtain ⟨C, hC, hCS, -⟩ := exists_isBottomComponent hfin hclosed hu
  have hEC : EndComponent G x σ (NodeSet.full G.size).toSet C := by
    refine { nonempty := hC.nonempty, inside := fun a ha => hD.inside (hS (hCS ha))
             chance := fun a ha hs => absurd hs (hno a (hrange a (hCS ha)))
             alive := fun a ha => ?_, connected := fun a ha b hb => ?_ }
    · obtain ⟨b, hb, hab⟩ := halive a (hCS ha)
      exact ⟨b, hC.closed a ha b ⟨hCS ha, hb, hab⟩, hab⟩
    · exact reflTransGen_inside_mono (fun _ _ _ hcd => hcd.2.2) (hC.connected_inside ha hb)
  obtain ⟨p, hp⟩ := exists_isLeast_priority G hC.nonempty
  obtain ⟨c, hc⟩ := hC.nonempty
  obtain ⟨b, hcb, hbm⟩ := hlow c (hCS hc)
  have hpb : p ≤ G.priority b := hp.2 ⟨b, mem_of_reflTransGen hC.closed hc hcb, rfl⟩
  obtain ⟨d, hd, hdp⟩ := hp.1
  have hfav := hD.parity C hEC (hCS.trans hS) p hp
  subst hdp
  exact hpar d (hCS hd) (hpb.trans hbm) hfav

/-- Two nodes `a` and `b` through which the steps of `H` from `u` go. -/
structure Detour (G : Game W) (x : Player) (σ : Strategy) (image : Nat → Nat) (H : Nat → Nat → Prop)
    (C : Set Nat) (m u a b : Nat) : Prop where
  first : G.Follows x σ (image u) a
  next : G.Follows x σ a b
  above : m ≤ G.priority a
  last : (G.priority b ≤ m ∧ Player.ofPriority (G.priority b) ≠ x ∧ ∃ w ∈ C, G.Follows x σ b (image w)) ∨
    (m < G.priority b ∧ ∀ w, H u w → G.Follows x σ b (image w))

/-- A part `C` of a game, closed under the steps of `H`, whose images lie in `won` and whose steps are
steps or detours there. Its priorities are at least `m`, which favours the opponent. -/
structure Mirror (G : Game W) (x : Player) (σ : Strategy) (won : Set Nat) (image : Nat → Nat)
    (H : Nat → Nat → Prop) (C : Set Nat) (m : Nat) : Prop where
  mem : ∀ u ∈ C, image u ∈ won
  closed : ∀ u ∈ C, ∀ w, H u w → w ∈ C
  alive : ∀ u ∈ C, ∃ w, H u w
  above : ∀ u ∈ C, m ≤ G.priority (image u)
  parity : Player.ofPriority m ≠ x
  step : ∀ u ∈ C, (∀ w, H u w → G.Follows x σ (image u) (image w)) ∨ ∃ a b, Detour G x σ image H C m u a b

namespace Mirror

variable {image : Nat → Nat} {H : Nat → Nat → Prop} {C : Set Nat} {m : Nat}

variable (G x σ image H C m) in
private def nodes : Set Nat :=
  {n | ∃ u ∈ C, n = image u ∨ ∃ a b, Detour G x σ image H C m u a b ∧ (n = a ∨ n = b)}

private theorem image_mem {u : Nat} (hu : u ∈ C) : image u ∈ nodes G x σ image H C m :=
  ⟨u, hu, Or.inl rfl⟩

private theorem detour_mem {u a b : Nat} (hu : u ∈ C) (h : Detour G x σ image H C m u a b) :
    a ∈ nodes G x σ image H C m ∧ b ∈ nodes G x σ image H C m :=
  ⟨⟨u, hu, Or.inr ⟨a, b, h, Or.inl rfl⟩⟩, ⟨u, hu, Or.inr ⟨a, b, h, Or.inr rfl⟩⟩⟩

private theorem exit (h : Mirror G x σ won image H C m) {u a b : Nat} (hu : u ∈ C)
    (hd : Detour G x σ image H C m u a b) : ∃ w ∈ C, G.Follows x σ b (image w) := by
  rcases hd.last with ⟨-, -, hw⟩ | ⟨-, hall⟩
  · exact hw
  · obtain ⟨w, huw⟩ := h.alive u hu
    exact ⟨w, h.closed u hu w huw, hall w huw⟩

private theorem next (h : Mirror G x σ won image H C m) :
    ∀ n ∈ nodes G x σ image H C m, ∃ k ∈ nodes G x σ image H C m, G.Follows x σ n k := by
  rintro n ⟨u, hu, rfl | ⟨a, b, hd, rfl | rfl⟩⟩
  · rcases h.step u hu with hdirect | ⟨a, b, hd⟩
    · obtain ⟨w, huw⟩ := h.alive u hu
      exact ⟨_, image_mem (h.closed u hu w huw), hdirect w huw⟩
    · exact ⟨a, (detour_mem hu hd).1, hd.first⟩
  · exact ⟨b, (detour_mem hu hd).2, hd.next⟩
  · obtain ⟨w, hw, hbw⟩ := h.exit hu hd
    exact ⟨_, image_mem hw, hbw⟩

private theorem parity_low (h : Mirror G x σ won image H C m) :
    ∀ n ∈ nodes G x σ image H C m, G.priority n ≤ m → Player.ofPriority (G.priority n) ≠ x := by
  have heq : ∀ {n}, m ≤ G.priority n → G.priority n ≤ m → Player.ofPriority (G.priority n) ≠ x := by
    intro n hmn hnm
    rw [le_antisymm hnm hmn]
    exact h.parity
  rintro n ⟨u, hu, rfl | ⟨a, b, hd, rfl | rfl⟩⟩ hn
  · exact heq (h.above u hu) hn
  · exact heq hd.above hn
  · rcases hd.last with ⟨-, hne, -⟩ | ⟨hgt, -⟩
    · exact hne
    · omega

/-- A walk to a node from which a low priority is seen is followed until one is seen. -/
private theorem low_of_walk (h : Mirror G x σ won image H C m) {u z : Nat} (hu : u ∈ C)
    (huz : ReflTransGen H u z)
    (hz : ∃ n, ReflTransGen (Inside (G.Follows x σ) (nodes G x σ image H C m)) (image z) n ∧
      G.priority n ≤ m) :
    ∃ n, ReflTransGen (Inside (G.Follows x σ) (nodes G x σ image H C m)) (image u) n ∧
      G.priority n ≤ m := by
  -- From the front of the walk: a detour sees a low priority itself, or it goes on along the walk.
  induction huz using ReflTransGen.head_induction_on with
  | refl => exact hz
  | @head u w huw _ ih =>
    have hw := h.closed u hu w huw
    obtain ⟨n, hwn, hn⟩ := ih hw
    rcases h.step u hu with hdirect | ⟨a, b, hd⟩
    · exact ⟨n, .head ⟨image_mem hu, image_mem hw, hdirect w huw⟩ hwn, hn⟩
    · obtain ⟨ha, hb⟩ := detour_mem hu hd
      have hub : ReflTransGen (Inside (G.Follows x σ) (nodes G x σ image H C m)) (image u) b :=
        .tail (.single ⟨image_mem hu, ha, hd.first⟩) ⟨ha, hb, hd.next⟩
      rcases hd.last with ⟨hbm, -⟩ | ⟨-, hall⟩
      · exact ⟨b, hub, hbm⟩
      · exact ⟨n, (hub.tail ⟨hb, image_mem hw, hall w huw⟩).trans hwn, hn⟩

/-- A region held by `x` mirrors no part in which every node leads to a node of priority `m`, or to one
whose detour sees a low priority. -/
theorem false_of_dominion (h : Mirror G x σ won image H C m)
    (hD : Dominion G x σ (NodeSet.full G.size).toSet won)
    (hno : ∀ v < G.size, G.owner v ≠ .stochastic) (hG : ∀ u v, G.Follows x σ u v → v < G.size)
    {z : Nat} (hz : z ∈ C) (hconn : ∀ u ∈ C, ReflTransGen H u z)
    (hlow : G.priority (image z) = m ∨
      ∀ a b, G.Follows x σ (image z) a → G.Follows x σ a b → G.priority b ≤ m) : False := by
  have hsub : nodes G x σ image H C m ⊆ won := by
    have hwon : ∀ {a b}, a ∈ won → G.Follows x σ a b → b ∈ won := fun ha hab =>
      hD.mem_of_follows ha hab (NodeSet.mem_full.mpr (hG _ _ hab))
    rintro n ⟨u, hu, rfl | ⟨a, b, hd, rfl | rfl⟩⟩
    · exact h.mem u hu
    · exact hwon (h.mem u hu) hd.first
    · exact hwon (hwon (h.mem u hu) hd.first) hd.next
  have hstart : ∃ n, ReflTransGen (Inside (G.Follows x σ) (nodes G x σ image H C m)) (image z) n ∧
      G.priority n ≤ m := by
    rcases hlow with heq | hafter
    · exact ⟨image z, .refl, heq.le⟩
    · obtain ⟨a, ha, hza⟩ := h.next _ (image_mem hz)
      obtain ⟨b, hb, hab⟩ := h.next a ha
      exact ⟨b, .tail (.single ⟨image_mem hz, ha, hza⟩) ⟨ha, hb, hab⟩, hafter a b hza hab⟩
  have himage : ∀ u ∈ C, ∃ n, ReflTransGen (Inside (G.Follows x σ) (nodes G x σ image H C m))
      (image u) n ∧ G.priority n ≤ m := fun u hu => h.low_of_walk hu (hconn u hu) hstart
  refine hD.not_trapped hno hsub m h.next ?_ h.parity_low (image z) (image_mem hz)
  rintro n ⟨u, hu, rfl | ⟨a, b, hd, hn⟩⟩
  · exact himage u hu
  · obtain ⟨ha, hb⟩ := detour_mem hu hd
    obtain ⟨w, hw, hbw⟩ := h.exit hu hd
    obtain ⟨k, hwk, hk⟩ := himage w hw
    have hbk := ReflTransGen.head ⟨hb, image_mem hw, hbw⟩ hwk
    rcases hn with rfl | rfl
    · exact ⟨k, .head ⟨ha, hb, hd.next⟩ hbk, hk⟩
    · exact ⟨k, hbk, hk⟩

end Mirror

end Detour

namespace Gadget

variable [Scalar W] {g : Game W} {D : Set Nat}

private theorem ofPriority_odd {p : Nat} (h : p % 2 = 1) : Player.ofPriority p = .odd := by
  simp [Player.ofPriority, h]

private theorem ofPriority_even {p : Nat} (h : p % 2 = 0) : Player.ofPriority p = .even := by
  simp [Player.ofPriority, h]

private theorem succ?_map {u a : Nat} (h : (transform g).succs a = (g.succs u).map (image g)) (i : Nat) :
    (transform g).succ? a i = (g.succ? u i).map (image g) := by
  rw [Game.succ?, h, List.getElem?_map, ← Game.succ?]

private theorem mem_second {u i b : Nat} (hu : u < g.size) (hs : g.owner u = .stochastic)
    (hi : i < secondCount (g.priority u)) :
    b ∈ (transform g).succs (second g u i) ↔ (0 < i ∧ b = third g u (2 * i - 1)) ∨
      (2 * i ≤ g.priority u ∧ b = third g u (2 * i)) := by
  rw [(view_second hu hs hi).2.2.2, List.mem_append]
  by_cases h0 : 0 < i <;> by_cases hp : 2 * i ≤ g.priority u <;> simp [h0, hp]

private theorem second_mem_succs {u i : Nat} (hu : u < g.size) (hs : g.owner u = .stochastic)
    (hi : i < secondCount (g.priority u)) : second g u i ∈ (transform g).succs (image g u) := by
  rw [(view_chance hu hs).2.2.2]
  exact List.mem_map_of_mem (List.mem_range.mpr hi)

private theorem follows_image {x : Player} {σ σ' : Strategy} {u w : Nat} (hu : u < g.size)
    (ho : g.owner u ≠ .stochastic) (hσ : g.owner u = x → σ.get u = σ'.get (image g u))
    (huw : g.Follows x σ u w) : (transform g).Follows x σ' (image g u) (image g w) := by
  obtain ⟨-, howner, -, hsucc⟩ := view_player hu ho
  obtain ⟨i, hi, hdec⟩ := huw
  refine ⟨i, by rw [succ?_map hsucc, hi, Option.map_some], fun he => ?_⟩
  rw [howner] at he
  rw [← hσ he]
  exact hdec he

/-- A region of the gadget game that is held mirrors no part of the game that sees its priority `m`, or
a low priority after a detour. -/
private theorem false_of_mirror (hg : g.Valid) {x : Player} {σ' : Strategy} {H : Nat → Nat → Prop}
    {C : Set Nat} {m z : Nat} (hD : Dominion (transform g) x σ' (NodeSet.full (transform g).size).toSet D)
    (h : Mirror (transform g) x σ' D (image g) H C m) (hz : z ∈ C) (hlt : z < g.size)
    (hconn : ∀ u ∈ C, ReflTransGen H u z)
    (hlow : g.priority z = m ∨ ∀ a b, (transform g).Follows x σ' (image g z) a →
      (transform g).Follows x σ' a b → (transform g).priority b ≤ m) : False := by
  rw [← priority_image hlt] at hlow
  exact h.false_of_dominion hD (fun _ => owner_transform)
    (fun _ _ hab => succ_lt_transform hg hab.mem_succs) hz hconn hlow

/-! ## From Even's region of the gadget game -/

section Even

variable {σ σ' : Strategy}
  (hD : Dominion (transform g) .even σ' (NodeSet.full (transform g).size).toSet D)

include hD in
/-- The detour through the second layer's node for `p + 1`, where `p` is odd: Even leaves it by priority
`p`, or by `p + 1` to any successor. -/
private theorem detour_even {C : Set Nat} {p u : Nat} (hp : p % 2 = 1) (hu : u < g.size)
    (huD : image g u ∈ D) (hs : g.owner u = .stochastic) (hpu : p ≤ g.priority u)
    (hC : ∀ w ∈ g.succs u, w ∈ C) {H : Nat → Nat → Prop} (hH : ∀ w, H u w → w ∈ g.succs u) :
    ∃ a b, Detour (transform g) .even σ' (image g) H C p u a b := by
  have hk : (p + 1) / 2 < secondCount (g.priority u) := by
    simp only [secondCount]
    omega
  obtain ⟨hlt, howner, hprio, -⟩ := view_second hu hs hk
  have hfirst : (transform g).Follows .even σ' (image g u) (second g u ((p + 1) / 2)) :=
    Game.follows_of_mem_succs (by simp [(view_chance hu hs).2.1]) (second_mem_succs hu hs hk)
  have hmem := hD.mem_of_follows huD hfirst (NodeSet.mem_full.mpr hlt)
  obtain ⟨i, b, hi, hb, hbD⟩ := hD.decided _ hmem howner
  refine ⟨_, b, hfirst, ⟨i, hb, fun _ => hi⟩, by rw [hprio]; exact hpu, ?_⟩
  rcases (mem_second hu hs hk).mp ((transform g).mem_succs_of_succ? hb) with ⟨-, rfl⟩ | ⟨hle, rfl⟩
  · rw [show 2 * ((p + 1) / 2) - 1 = p by omega] at hbD ⊢
    obtain ⟨-, hown, hpri, hsucc⟩ := view_third hu hs hpu
    rw [hpri, ofPriority_odd hp]
    rw [ofPriority_odd hp] at hown
    obtain ⟨j, t, hj, ht, -⟩ := hD.decided _ hbD hown
    rw [succ?_map hsucc] at ht
    obtain ⟨w, hw, rfl⟩ := Option.map_eq_some_iff.mp ht
    refine Or.inl ⟨le_rfl, by simp, w, hC w (g.mem_succs_of_succ? hw), j, ?_, fun _ => hj⟩
    rw [succ?_map hsucc, hw, Option.map_some]
  · rw [show 2 * ((p + 1) / 2) = p + 1 by omega] at hle hbD ⊢
    obtain ⟨-, hown, hpri, hsucc⟩ := view_third hu hs hle
    rw [hpri]
    refine Or.inr ⟨Nat.lt_succ_self p, fun w huw => Game.follows_of_mem_succs ?_ ?_⟩
    · rw [hown, ofPriority_even (by omega)]
      simp [Player.opponent]
    · rw [hsucc]
      exact List.mem_map_of_mem (hH w huw)

include hD in
private theorem image_mem_of_succ (hg : g.Valid) {u t : Nat} (hu : u < g.size) (huD : image g u ∈ D)
    (ho : g.owner u ≠ .even) (ht : t ∈ g.succs u) : image g t ∈ D := by
  have htl := NodeSet.mem_full.mpr (image_lt (hg.succ_lt ht))
  by_cases hs : g.owner u = .stochastic
  · -- The second layer's node for 0 leads to a node of Odd only.
    have h0 : 0 < secondCount (g.priority u) := by simp [secondCount]
    obtain ⟨hlt, howner, -, -⟩ := view_second hu hs h0
    have hmem := hD.closed _ huD (by simp [(view_chance hu hs).2.1]) _ (second_mem_succs hu hs h0)
      (NodeSet.mem_full.mpr hlt)
    obtain ⟨i, b, -, hb, hbD⟩ := hD.decided _ hmem howner
    rcases (mem_second hu hs h0).mp ((transform g).mem_succs_of_succ? hb) with ⟨h, -⟩ | ⟨-, rfl⟩
    · exact absurd h (lt_irrefl 0)
    · obtain ⟨-, hown, -, hsucc⟩ := view_third hu hs (Nat.zero_le (g.priority u))
      refine hD.closed _ hbD (by simp [hown, Player.ofPriority, Player.opponent]) _ ?_ htl
      rw [Nat.mul_zero, hsucc]
      exact List.mem_map_of_mem ht
  · obtain ⟨-, howner, -, hsucc⟩ := view_player hu hs
    refine hD.closed _ huD (by rwa [howner]) _ ?_ htl
    rw [hsucc]
    exact List.mem_map_of_mem ht

include hD in
/-- An end component that favours Odd would be mirrored in the gadget game. -/
private theorem mirror_even (hg : g.Valid) (hσ : ∀ u < g.size, σ.get u = σ'.get (image g u))
    {C : Set Nat} (hC : EndComponent g .even σ (NodeSet.full g.size).toSet C)
    (hsub : ∀ u ∈ C, u < g.size ∧ image g u ∈ D) {p : Nat} (hodd : p % 2 = 1)
    (hleast : ∀ u ∈ C, p ≤ g.priority u) :
    Mirror (transform g) .even σ' D (image g) (Inside (g.Follows .even σ) C) C p where
  mem u hu := (hsub u hu).2
  closed _ _ _ huw := huw.2.1
  alive u hu := by
    obtain ⟨w, hw, huw⟩ := hC.alive u hu
    exact ⟨w, hu, hw, huw⟩
  above u hu := by
    rw [priority_image (hsub u hu).1]
    exact hleast u hu
  parity := by simp [ofPriority_odd hodd]
  step u hu := by
    obtain ⟨hlt, huD⟩ := hsub u hu
    by_cases hs : g.owner u = .stochastic
    · refine Or.inr (detour_even hD hodd hlt huD hs (hleast u hu) ?_ ?_)
      · exact fun w hw => hC.chance u hu hs w hw (NodeSet.mem_full.mpr (hg.succ_lt hw))
      · exact fun w huw => huw.2.2.mem_succs
    · exact Or.inl fun w huw => follows_image hlt hs (fun _ => hσ u hlt) huw.2.2

include hD in
/-- What Even holds in the gadget game it holds in the game. -/
theorem dominion_of_transform (hg : g.Valid) (hσ : ∀ u < g.size, σ.get u = σ'.get (image g u)) :
    Dominion g .even σ (NodeSet.full g.size).toSet {v | v < g.size ∧ image g v ∈ D} where
  inside v hv := NodeSet.mem_full.mpr hv.1
  decided := by
    rintro u ⟨hu, huD⟩ ho
    obtain ⟨-, howner, -, hsucc⟩ := view_player hu (by simp [ho])
    obtain ⟨i, t, hi, ht, htD⟩ := hD.decided _ huD (howner.trans ho)
    rw [succ?_map hsucc] at ht
    obtain ⟨w, hw, rfl⟩ := Option.map_eq_some_iff.mp ht
    exact ⟨i, w, (hσ u hu).trans hi, hw, hg.succ_lt (g.mem_succs_of_succ? hw), htD⟩
  closed u hu ho t ht _ := ⟨hg.succ_lt ht, image_mem_of_succ hD hg hu.1 hu.2 ho ht⟩
  parity C hC hsub p hp := by
    rcases Nat.mod_two_eq_zero_or_one p with heven | hodd
    · exact ofPriority_even heven
    · obtain ⟨z, hz, hzp⟩ := hp.1
      have hmirror := mirror_even hD hg hσ hC hsub hodd fun u hu => hp.2 ⟨u, hu, rfl⟩
      exact (false_of_mirror hg hD hmirror hz (hsub hz).1 (fun u hu => hC.connected u hu z hz)
        (Or.inl hzp)).elim

end Even

/-! ## From Odd's region of the gadget game -/

section Odd

variable {σ τ τ' : Strategy}

/-- The steps of the play that Odd's region keeps: where Odd chooses the second layer's node for 0, only
the successor that Odd chooses next. -/
private def Keeps (g : Game W) (τ' τ σ : Strategy) (u w : Nat) : Prop :=
  g.Plays .odd τ σ u w ∧ (g.owner u = .stochastic → τ'.get (image g u) = some 0 →
    (transform g).Follows .odd τ' (third g u 0) (image g w))

variable (hD : Dominion (transform g) .odd τ' (NodeSet.full (transform g).size).toSet D)

include hD in
private theorem exists_position {u : Nat} (hu : u < g.size) (huD : image g u ∈ D)
    (hs : g.owner u = .stochastic) :
    ∃ i < secondCount (g.priority u), τ'.get (image g u) = some i ∧
      (transform g).Follows .odd τ' (image g u) (second g u i) ∧ second g u i ∈ D := by
  obtain ⟨-, howner, -, hsucc⟩ := view_chance hu hs
  obtain ⟨i, t, hi, ht, htD⟩ := hD.decided _ huD howner
  have hlt := (transform g).lt_degree_of_succ? ht
  rw [← Game.length_succs, hsucc, List.length_map, List.length_range] at hlt
  have hti : t = second g u i := by
    rw [Game.succ?, hsucc, List.getElem?_map, List.getElem?_range hlt] at ht
    exact (Option.some.inj ht).symm
  subst hti
  exact ⟨i, hlt, hi, ⟨i, ht, fun _ => hi⟩, htD⟩

include hD in
/-- In the second layer Odd leaves the choice to Even, so all its successors are held. -/
private theorem third_mem {u i b : Nat} (hg : g.Valid) (hu : u < g.size) (hs : g.owner u = .stochastic)
    (hi : i < secondCount (g.priority u)) (hmem : second g u i ∈ D)
    (hb : b ∈ (transform g).succs (second g u i)) : b ∈ D :=
  hD.closed _ hmem (by simp [(view_second hu hs hi).2.1]) b hb
    (NodeSet.mem_full.mpr (succ_lt_transform hg hb))

include hD in
private theorem image_mem_of_keeps (hg : g.Valid) (hτ : ∀ u < g.size, image g u ∈ D →
    τ.get u = τ'.get (image g u)) {u w : Nat} (hu : u < g.size) (huD : image g u ∈ D)
    (huw : Keeps g τ' τ σ u w) : image g w ∈ D := by
  have hw := NodeSet.mem_full.mpr (image_lt (hg.succ_lt huw.1.mem_succs))
  by_cases hs : g.owner u = .stochastic
  · obtain ⟨i, hi, hget, -, hmem⟩ := exists_position hD hu huD hs
    by_cases h0 : i = 0
    · subst h0
      have hthird := third_mem hD hg hu hs hi hmem ((mem_second hu hs hi).mpr (Or.inr ⟨by omega, rfl⟩))
      exact hD.mem_of_follows hthird (huw.2 hs hget) hw
    · -- Even may leave by the odd priority below, and then by every successor.
      have hlast : 2 * i - 1 ≤ g.priority u := by
        simp only [secondCount] at hi
        omega
      have hthird := third_mem hD hg hu hs hi hmem ((mem_second hu hs hi).mpr (Or.inl ⟨by omega, rfl⟩))
      obtain ⟨-, hown, -, hsucc⟩ := view_third hu hs hlast
      refine hD.closed _ hthird ?_ _ ?_ hw
      · simp [hown, ofPriority_odd (show (2 * i - 1) % 2 = 1 by omega), Player.opponent]
      · rw [hsucc]
        exact List.mem_map_of_mem huw.1.mem_succs
  · exact hD.mem_of_follows huD (follows_image hu hs (fun _ => hτ u hu huD) huw.1.1) hw

omit [Scalar W] in
private theorem plays_of_chance {u w : Nat} (hs : g.owner u = .stochastic) (hw : w ∈ g.succs u) :
    g.Plays .odd τ σ u w :=
  ⟨Game.follows_of_mem_succs (by simp [hs]) hw,
    Game.follows_of_mem_succs (by simp [hs, Player.opponent]) hw⟩

include hD in
/-- The third layer's node for an even priority is Odd's, who chooses a step that is kept. -/
private theorem exists_keeps_of_third {u i : Nat} (hu : u < g.size) (hs : g.owner u = .stochastic)
    (hget : τ'.get (image g u) = some i) (hi : 2 * i ≤ g.priority u) (hmem : third g u (2 * i) ∈ D) :
    ∃ w, Keeps g τ' τ σ u w ∧ (transform g).Follows .odd τ' (third g u (2 * i)) (image g w) := by
  obtain ⟨-, hown, -, hsucc⟩ := view_third hu hs hi
  rw [ofPriority_even (by omega)] at hown
  obtain ⟨j, t, hj, ht, -⟩ := hD.decided _ hmem hown
  have ht' := ht
  rw [succ?_map hsucc] at ht'
  obtain ⟨w, hw, rfl⟩ := Option.map_eq_some_iff.mp ht'
  have hfol : (transform g).Follows .odd τ' (third g u (2 * i)) (image g w) := ⟨j, ht, fun _ => hj⟩
  refine ⟨w, ⟨plays_of_chance hs (g.mem_succs_of_succ? hw), fun _ h0 => ?_⟩, hfol⟩
  have hzero : i = 0 := Option.some.inj (hget.symm.trans h0)
  subst hzero
  exact hfol

include hD in
private theorem detour_odd (hg : g.Valid) {C : Set Nat} {m u : Nat} (hm : m % 2 = 0) (hu : u < g.size)
    (huD : image g u ∈ D) (hs : g.owner u = .stochastic) (hmu : m ≤ g.priority u)
    (hC : ∀ w, Keeps g τ' τ σ u w → w ∈ C) :
    ∃ a b, Detour (transform g) .odd τ' (image g) (Keeps g τ' τ σ) C m u a b := by
  obtain ⟨i, hi, hget, hfirst, hmem⟩ := exists_position hD hu huD hs
  obtain ⟨-, howner, hprio, -⟩ := view_second hu hs hi
  by_cases hle : 2 * i ≤ m
  · have hb := (mem_second hu hs hi).mpr (Or.inr ⟨hle.trans hmu, rfl⟩)
    obtain ⟨w, hkeep, hfol⟩ := exists_keeps_of_third (τ := τ) (σ := σ) hD hu hs hget (hle.trans hmu)
      (third_mem hD hg hu hs hi hmem hb)
    obtain ⟨-, -, hpri, -⟩ := view_third hu hs (hle.trans hmu)
    refine ⟨_, _, hfirst, Game.follows_of_mem_succs (by simp [howner]) hb, by rwa [hprio], Or.inl ?_⟩
    rw [hpri, ofPriority_even (by omega)]
    exact ⟨hle, by simp, w, hC w hkeep, hfol⟩
  · have hlast : 2 * i - 1 ≤ g.priority u := by
      simp only [secondCount] at hi
      omega
    have hb := (mem_second hu hs hi).mpr (Or.inl ⟨by omega, rfl⟩)
    obtain ⟨-, hown, hpri, hsucc⟩ := view_third hu hs hlast
    refine ⟨_, _, hfirst, Game.follows_of_mem_succs (by simp [howner]) hb, by rwa [hprio], Or.inr ?_⟩
    refine ⟨by omega, fun w hkeep => Game.follows_of_mem_succs ?_ ?_⟩
    · simp [hown, ofPriority_odd (show (2 * i - 1) % 2 = 1 by omega), Player.opponent]
    · rw [hsucc]
      exact List.mem_map_of_mem hkeep.1.mem_succs

include hD in
private theorem exists_keeps (hg : g.Valid) (hτ : τ.Decides g .odd) (hσ : σ.Decides g .even) {u : Nat}
    (hu : u < g.size) (huD : image g u ∈ D) : ∃ w, Keeps g τ' τ σ u w := by
  by_cases hs : g.owner u = .stochastic
  · obtain ⟨i, hi, hget, -, hmem⟩ := exists_position hD hu huD hs
    by_cases h0 : i = 0
    · subst h0
      have hthird := third_mem hD hg hu hs hi hmem ((mem_second hu hs hi).mpr (Or.inr ⟨by omega, rfl⟩))
      obtain ⟨w, hkeep, -⟩ := exists_keeps_of_third hD hu hs hget (by omega) hthird
      exact ⟨w, hkeep⟩
    · obtain ⟨w, hw⟩ := List.exists_mem_of_ne_nil _ (hg.succs_ne_nil hu)
      refine ⟨w, plays_of_chance hs hw, fun _ hzero => ?_⟩
      exact absurd (Option.some.inj (hget.symm.trans hzero)) h0
  · obtain ⟨w, hw⟩ := Game.exists_plays (x := .odd) (by simp) (hg.succs_ne_nil hu) (hτ.exists_succ? hu)
      (hσ.exists_succ? hu)
    exact ⟨w, hw, fun h => absurd h hs⟩

include hD in
private theorem mirror_odd (hg : g.Valid) (hτ : τ.Decides g .odd) (hσ : σ.Decides g .even)
    (hsame : ∀ u < g.size, image g u ∈ D → τ.get u = τ'.get (image g u)) {C : Set Nat}
    (hC : IsBottomComponent (Keeps g τ' τ σ) C) (hsub : ∀ u ∈ C, u < g.size ∧ image g u ∈ D) {m : Nat}
    (hm : m % 2 = 0) (hleast : ∀ u ∈ C, m ≤ g.priority u) :
    Mirror (transform g) .odd τ' D (image g) (Keeps g τ' τ σ) C m where
  mem u hu := (hsub u hu).2
  closed := hC.closed
  alive u hu := exists_keeps hD hg hτ hσ (hsub u hu).1 (hsub u hu).2
  above u hu := by
    rw [priority_image (hsub u hu).1]
    exact hleast u hu
  parity := by simp [ofPriority_even hm]
  step u hu := by
    obtain ⟨hlt, huD⟩ := hsub u hu
    by_cases hs : g.owner u = .stochastic
    · exact Or.inr (detour_odd hD hg hm hlt huD hs (hleast u hu) (hC.closed u hu))
    · exact Or.inl fun w huw => follows_image hlt hs (fun _ => hsame u hlt huD) huw.1.1

include hD in
/-- A component of the kept steps sees no node where Odd chooses the second layer's node for 0, since
its detour has priority 0. -/
private theorem position_ne_zero (hg : g.Valid) (hτ : τ.Decides g .odd) (hσ : σ.Decides g .even)
    (hsame : ∀ u < g.size, image g u ∈ D → τ.get u = τ'.get (image g u)) {C : Set Nat}
    (hC : IsBottomComponent (Keeps g τ' τ σ) C) (hsub : ∀ u ∈ C, u < g.size ∧ image g u ∈ D) {z : Nat}
    (hz : z ∈ C) (hs : g.owner z = .stochastic) : τ'.get (image g z) ≠ some 0 := by
  intro hzero
  have hmirror := mirror_odd hD hg hτ hσ hsame hC hsub (Nat.zero_mod 2) fun u _ => Nat.zero_le _
  obtain ⟨hlt, hzD⟩ := hsub z hz
  obtain ⟨i, hi, hget, hfirst, -⟩ := exists_position hD hlt hzD hs
  have hi0 : i = 0 := Option.some.inj (hget.symm.trans hzero)
  subst hi0
  refine false_of_mirror hg hD hmirror hz hlt (fun u hu => hC.connected u hu z hz)
    (Or.inr fun a b hza hab => ?_)
  obtain ⟨j, hj, hdec⟩ := hfirst
  have howner := (view_chance hlt hs).2.1
  obtain rfl := hza.eq_of_decided howner (hdec howner) hj
  rcases (mem_second hlt hs hi).mp hab.mem_succs with ⟨h, -⟩ | ⟨hle, rfl⟩
  · exact absurd h (lt_irrefl 0)
  · rw [(view_third hlt hs hle).2.2.1]

include hD in
/-- Where Odd holds the gadget game, it keeps a positive probability of winning the game. -/
theorem exists_winsPositivelyBy (hg : g.Valid) :
    ∃ τ : Strategy, τ.Decides g .odd ∧
      ∀ v < g.size, image g v ∈ D → g.WinsPositivelyBy .odd τ v := by
  obtain ⟨τ, hτ, hsame⟩ := Strategy.exists_decides_extending (x := .odd) hg {u | image g u ∈ D}
    (fun u => τ'.get (image g u)) fun u hu huD ho => by
      obtain ⟨-, howner, -, hsucc⟩ := view_player hu (by simp [ho])
      obtain ⟨i, t, hi, ht, -⟩ := hD.decided _ huD (howner.trans ho)
      rw [succ?_map hsucc] at ht
      obtain ⟨w, hw, -⟩ := Option.map_eq_some_iff.mp ht
      exact ⟨i, hi, g.lt_degree_of_succ? hw⟩
  refine ⟨τ, hτ, fun v hv hvD σ hσ => ?_⟩
  have hclosed : ∀ u ∈ {u | u < g.size ∧ image g u ∈ D}, ∀ w, Keeps g τ' τ σ u w →
      w ∈ {u | u < g.size ∧ image g u ∈ D} := fun u hu w huw =>
    ⟨hg.succ_lt huw.1.mem_succs, image_mem_of_keeps hD hg hsame hu.1 hu.2 huw⟩
  obtain ⟨C, hC, hsub, u, hu, hvu⟩ := exists_isBottomComponent
    ((Set.finite_lt_nat g.size).subset fun _ h => h.1) hclosed ⟨hv, hvD⟩
  -- No step of the play is dropped inside a component of the kept steps.
  have hplays : ∀ {a b}, Keeps g τ' τ σ a b → g.Plays .odd τ σ a b := fun hab => hab.1
  have hbottom : IsBottomComponent (g.Plays .odd τ σ) C := by
    refine ⟨hC.nonempty, fun a ha b hab => hC.closed a ha b ⟨hab, fun hs hzero => ?_⟩, fun a ha b hb =>
      ReflTransGen.mono (fun _ _ => hplays) _ _ (hC.connected a ha b hb)⟩
    exact absurd hzero (position_ne_zero hD hg hτ hσ hsame hC hsub ha hs)
  refine ⟨C, hbottom, ⟨u, hu, ReflTransGen.mono (fun _ _ => hplays) _ _ hvu⟩, fun p hp => ?_⟩
  rcases Nat.mod_two_eq_zero_or_one p with heven | hodd
  · obtain ⟨z, hz, hzp⟩ := hp.1
    have hmirror := mirror_odd hD hg hτ hσ hsame hC hsub heven fun u hu => hp.2 ⟨u, hu, rfl⟩
    exact (false_of_mirror hg hD hmirror hz (hsub hz).1 (fun u hu => hC.connected u hu z hz)
      (Or.inl hzp)).elim
  · exact ofPriority_odd hodd

end Odd

end Gadget
end OmegaGames
