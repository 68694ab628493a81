import OmegaGames.Proofs.Attraction

/-!
# What is left when the escapes are taken away

The weak attractor shrinks a set of nodes round by round. `Kept` says what every round keeps true of
the nodes that are left: no edge of the opponent or of chance leads out of them except at the target,
and no edge of the player leads back into them from outside. When a round takes nothing away, the
strong attractor covers what is left.
-/
namespace OmegaGames

variable {W : Type}

namespace Player

theorem opponent_ne_stochastic {x : Player} (h : x ≠ .stochastic) : x.opponent ≠ .stochastic := by
  cases x <;> simp [opponent] at h ⊢

theorem opponent_ne_self {x : Player} (h : x ≠ .stochastic) : x.opponent ≠ x := by
  cases x <;> simp [opponent] at h ⊢

theorem eq_or_eq_opponent {x y : Player} (hx : x ≠ .stochastic) (hy : y ≠ .stochastic) :
    x = y ∨ x = y.opponent := by
  cases x <;> cases y <;> simp [opponent] at hx hy ⊢

theorem eq_opponent_or_stochastic {x y : Player} (hy : y ≠ .stochastic) (h : x ≠ y) :
    x = y.opponent ∨ x = .stochastic := by
  cases x <;> cases y <;> simp [opponent] at hy h ⊢

theorem ofPriority_ne_stochastic (p : Nat) : ofPriority p ≠ .stochastic := by
  unfold ofPriority
  split <;> simp

end Player

theorem Attraction.size_diff_lt {g : Game W} {target nodes blocked blocked' : NodeSet} {x y : Player}
    {σ τ : Strategy} {strong lost : Front} (hs : Attraction g target nodes blocked x σ strong)
    (hn : nodes.range = g.size) (hne : strong.reached ≠ nodes)
    (hl : Attraction g (nodes.diff strong.reached) nodes blocked' y τ lost) :
    (nodes.diff lost.reached).size < nodes.size := by
  obtain ⟨v, hv, hvr⟩ : ∃ v ∈ nodes, v ∉ strong.reached := by
    by_contra hall
    push Not at hall
    exact hne (NodeSet.ext_mem (hs.range.trans hn.symm) fun v => ⟨hs.inside v, hall v⟩)
  apply NodeSet.size_lt_of_subset (fun w hw => (NodeSet.mem_diff.mp hw).1) hv
  intro hd
  exact (NodeSet.mem_diff.mp hd).2 (hl.seeded v hv (NodeSet.mem_diff.mpr ⟨hv, hvr⟩))

theorem Game.strongAttractor_of_empty (g : Game W) (target : NodeSet) (player : Player) {nodes : NodeSet}
    (hn : nodes.range = g.size) (hempty : ∀ v, v ∉ nodes) :
    g.arena.strongAttractor target nodes player = nodes := by
  obtain ⟨f, hf, hs⟩ := g.attraction_strongAttractor target player hn
  rw [← hf]
  apply NodeSet.ext_mem (hs.range.trans hn.symm)
  intro v
  exact ⟨hs.inside v, fun hv => absurd hv (hempty v)⟩

/-- What holds of the nodes `rest` that are left of `nodes` after some rounds. -/
structure Kept (g : Game W) (target nodes : NodeSet) (player : Player) (rest : NodeSet) : Prop where
  range : rest.range = g.size
  inside : ∀ v ∈ rest, v ∈ nodes
  seeded : ∀ v ∈ nodes, v ∈ target → v ∈ rest
  closed : ∀ u ∈ rest, u ∉ target → g.owner u ≠ player → ∀ t ∈ g.succs u, t ∈ nodes → t ∈ rest
  shut : ∀ u ∈ nodes, u ∉ rest → g.owner u = player → ∀ t ∈ g.succs u, t ∉ rest
  total : (∀ u ∈ nodes, ∃ t ∈ g.succs u, t ∈ nodes) →
    ∀ u ∈ nodes, u ∉ rest → ∃ t ∈ g.succs u, t ∈ nodes ∧ t ∉ rest

namespace Kept

variable {g : Game W} {target nodes rest : NodeSet} {player : Player}

theorem start (hn : nodes.range = g.size) : Kept g target nodes player nodes where
  range := hn
  inside _ hv := hv
  seeded _ hv _ := hv
  closed _ _ _ _ _ _ ht := ht
  shut _ hu hr := absurd hu hr
  total _ _ hu hr := absurd hu hr

/-- A node with no way out of the attractor's complement is lost, together with what the opponent
attracts to it. -/
private theorem round (hp : player ≠ .stochastic) (h : Kept g target nodes player rest)
    {strong lost : Front} (hs : Attraction g target rest (.empty 0) player (.blank 0) strong)
    (hl : Attraction g (rest.diff strong.reached) rest target player.opponent (.blank 0) lost) :
    Kept g target nodes player (rest.diff lost.reached) := by
  have hnone : ∀ v, v ∉ NodeSet.empty 0 := NodeSet.not_mem_empty 0
  have houtside : ∀ v ∈ rest, v ∉ strong.reached → v ∈ lost.reached := fun v hv hr =>
    hl.seeded v hv (NodeSet.mem_diff.mpr ⟨hv, hr⟩)
  have hleft : ∀ v, v ∈ rest.diff lost.reached ↔ v ∈ rest ∧ v ∉ lost.reached := fun v =>
    NodeSet.mem_diff
  have hgone : ∀ v ∈ rest, v ∉ rest.diff lost.reached → v ∈ lost.reached := by
    intro v hv hd
    by_contra hvl
    exact hd ((hleft v).mpr ⟨hv, hvl⟩)
  refine { range := by simpa using h.range, inside := ?inside, seeded := ?seeded, closed := ?closed
           shut := ?shut, total := ?total }
  case inside =>
    intro v hv
    exact h.inside v ((hleft v).mp hv).1
  case seeded =>
    intro v hv ht
    refine (hleft v).mpr ⟨h.seeded v hv ht, fun hlost => ?_⟩
    refine hl.free v hlost (fun hd => ?_) ht
    exact (NodeSet.mem_diff.mp hd).2 (hs.seeded v (h.seeded v hv ht) ht)
  case closed =>
    intro u hu ht ho t hst htn
    obtain ⟨hur, hul⟩ := (hleft u).mp hu
    refine (hleft t).mpr ⟨h.closed u hur ht ho t hst htn, fun htl => ?_⟩
    exact hl.avoids u hur hul ht (Player.eq_opponent_or_stochastic hp ho) t hst htl
  case shut =>
    intro u hu hur ho t hst htr
    obtain ⟨htr, htl⟩ := (hleft t).mp htr
    by_cases hrest : u ∈ rest
    · have hul := hgone u hrest hur
      by_cases hus : u ∈ strong.reached
      · -- The opponent attracted a node of the player, so all its edges are lost.
        have hout : u ∉ rest.diff strong.reached := fun hd => (NodeSet.mem_diff.mp hd).2 hus
        have hother : g.owner u ≠ player.opponent := ho ▸ (Player.opponent_ne_self hp).symm
        exact htl ((hl.other u hul hout hother (ho ▸ hp)).2 t hst htr).1
      · have hts : t ∈ strong.reached := by
          by_contra hts
          exact htl (houtside t htr hts)
        exact hs.avoids u hrest hus (hnone u) (Or.inl ho) t hst hts
    · exact h.shut u hu hrest ho t hst htr
  case total =>
    intro htotal u hu hur
    by_cases hrest : u ∈ rest
    · have hul := hgone u hrest hur
      by_cases hin : ∃ t ∈ g.succs u, t ∈ rest
      · suffices hex : ∃ t ∈ g.succs u, t ∈ lost.reached by
          obtain ⟨t, hst, htl⟩ := hex
          exact ⟨t, hst, h.inside t (hl.inside t htl), fun htd => ((hleft t).mp htd).2 htl⟩
        by_cases hus : u ∈ strong.reached
        · exact hl.exists_reached hul fun hd => (NodeSet.mem_diff.mp hd).2 hus
        · obtain ⟨t, hst, htr, hts⟩ := hs.exists_outside hrest hus (hnone u) hin
          exact ⟨t, hst, houtside t htr hts⟩
      · obtain ⟨t, hst, htn⟩ := htotal u hu
        exact ⟨t, hst, htn, fun htd => hin ⟨t, hst, ((hleft t).mp htd).1⟩⟩
    · obtain ⟨t, hst, htn, htr⟩ := h.total htotal u hu hrest
      exact ⟨t, hst, htn, fun htd => htr ((hleft t).mp htd).1⟩

/-- All rounds together: what is left in the end is covered by its strong attractor. -/
private theorem narrow (hp : player ≠ .stochastic) (rounds : Nat)
    (h : Kept g target nodes player rest) (hsize : rest.size ≤ rounds) :
    Kept g target nodes player (g.arena.narrow target player rounds rest) ∧
      g.arena.strongAttractor target (g.arena.narrow target player rounds rest) player =
        g.arena.narrow target player rounds rest := by
  induction rounds generalizing rest with
  | zero =>
    have heq := g.strongAttractor_of_empty target player h.range
      (NodeSet.not_mem_of_size_eq_zero (Nat.le_zero.mp hsize))
    rw [Arena.narrow, heq]
    exact ⟨h, heq⟩
  | succ rounds ih =>
    rw [Arena.narrow]
    split
    · rename_i heq
      rw [heq]
      exact ⟨h, heq⟩
    · rename_i hne
      obtain ⟨f, hf, hs⟩ := g.attraction_strongAttractor target player h.range
      rw [← hf] at hne ⊢
      have hl : Attraction g (rest.diff f.reached) rest target player.opponent (.blank 0) _ :=
        attraction_attract h.range
      have hlt := hs.size_diff_lt h.range hne hl
      exact ih (h.round hp hs hl) (by omega)

end Kept

namespace Game

variable (g : Game W) (target : NodeSet) {nodes : NodeSet} {player : Player}

theorem kept_weakAttractor (hp : player ≠ .stochastic) (hn : nodes.range = g.size) :
    Kept g target nodes player (g.arena.weakAttractor target nodes player) :=
  (Kept.narrow hp nodes.range (Kept.start hn) nodes.size_le_range).1

theorem strongAttractor_weakAttractor (hp : player ≠ .stochastic) (hn : nodes.range = g.size) :
    g.arena.strongAttractor target (g.arena.weakAttractor target nodes player) player =
      g.arena.weakAttractor target nodes player :=
  (Kept.narrow hp nodes.range (Kept.start hn) nodes.size_le_range).2

end Game
end OmegaGames
