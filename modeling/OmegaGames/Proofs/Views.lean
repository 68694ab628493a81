import OmegaGames.Game.Restriction
import OmegaGames.Game.Subgame
import OmegaGames.Proofs.Dominion
import OmegaGames.Proofs.NodeSets
import OmegaGames.Proofs.Peeling
import OmegaGames.Proofs.Plays

/-!
# Subgames and restrictions

A subgame or a restriction shows part of a game: each of its nodes stands for one of the game, and each
of its edges for an edge of the game. It is valid unless it has a dead end. A region that a player
holds in the game is held in a view of it that keeps the player's decisions and the edges of chance.
-/
namespace OmegaGames

open Relation

variable {W : Type}

/-! ## Views -/

/-- Inside a set of nodes, the nodes and edges of one game stand for those of another, and chance keeps
all the edges that stay inside. -/
structure Game.View (h g : Game W) (f : Nat → Nat) (inner outer : Set Nat) : Prop where
  owner : ∀ v ∈ inner, h.owner v = g.owner (f v)
  priority : ∀ v ∈ inner, h.priority v = g.priority (f v)
  succ : ∀ v ∈ inner, ∀ t ∈ h.succs v, t ∈ inner → f t ∈ g.succs (f v) ∧ f t ∈ outer
  chance : ∀ v ∈ inner, h.owner v = .stochastic → ∀ w ∈ g.succs (f v), w ∈ outer →
    ∃ t ∈ h.succs v, t ∈ inner ∧ f t = w

/-- The decisions of a player in a view stand for its decisions in the game. -/
def Game.Keeps (h g : Game W) (f : Nat → Nat) (x : Player) (τ σ : Strategy) (inner : Set Nat) : Prop :=
  ∀ v ∈ inner, h.owner v = x → ∃ i t j, τ.get v = some i ∧ h.succ? v i = some t ∧ t ∈ inner ∧
    σ.get (f v) = some j ∧ g.succ? (f v) j = some (f t)

section Views

variable {g h : Game W} {f : Nat → Nat} {x : Player} {σ τ : Strategy} {inner outer won : Set Nat}

theorem Game.Keeps.follows {won : Set Nat} (hk : h.Keeps g f x τ σ won) (hv : h.View g f inner outer)
    {u v : Nat} (hu : u ∈ won) (hui : u ∈ inner) (hvi : v ∈ inner) (huv : h.Follows x τ u v) :
    g.Follows x σ (f u) (f v) := by
  by_cases ho : h.owner u = x
  · obtain ⟨i, t, j, hi, ht, -, hj, hft⟩ := hk u hu ho
    obtain rfl := huv.eq_of_decided ho hi ht
    exact ⟨j, hft, fun _ => hj⟩
  · rw [hv.owner u hui] at ho
    exact g.follows_of_mem_succs ho (hv.succ u hui v huv.mem_succs hvi).1

theorem EndComponent.view {C : Set Nat} (hC : EndComponent h x τ inner C) (hv : h.View g f inner outer)
    (hout : ∀ u ∈ C, f u ∈ outer) (hk : h.Keeps g f x τ σ C) : EndComponent g x σ outer (f '' C) where
  nonempty := hC.nonempty.image f
  inside := by
    rintro _ ⟨u, hu, rfl⟩
    exact hout u hu
  chance := by
    rintro _ ⟨u, hu, rfl⟩ hs w hw hwo
    have hui := hC.inside hu
    rw [← hv.owner u hui] at hs
    obtain ⟨t, ht, hti, rfl⟩ := hv.chance u hui hs w hw hwo
    exact ⟨t, hC.chance u hu hs t ht hti, rfl⟩
  alive := by
    rintro _ ⟨u, hu, rfl⟩
    obtain ⟨v, hvC, huv⟩ := hC.alive u hu
    exact ⟨f v, ⟨v, hvC, rfl⟩, hk.follows hv hu (hC.inside hu) (hC.inside hvC) huv⟩
  connected := by
    rintro _ ⟨u, hu, rfl⟩ _ ⟨v, hvC, rfl⟩
    have hwalk := hC.connected u hu v hvC
    clear hvC
    induction hwalk with
    | refl => exact .refl
    | tail _ hab ih =>
      refine ih.tail ⟨⟨_, hab.1, rfl⟩, ⟨_, hab.2.1, rfl⟩, ?_⟩
      exact hk.follows hv hab.1 (hC.inside hab.1) (hC.inside hab.2.1) hab.2.2

theorem Dominion.view (hD : Dominion g x σ outer won) (hv : h.View g f inner outer)
    (hk : h.Keeps g f x τ σ {v | v ∈ inner ∧ f v ∈ won}) :
    Dominion h x τ inner {v | v ∈ inner ∧ f v ∈ won} where
  inside u hu := hu.1
  decided u hu ho := by
    obtain ⟨i, t, j, hi, ht, htw, -⟩ := hk u hu ho
    exact ⟨i, t, hi, ht, htw⟩
  closed u hu ho t ht hti := by
    rw [hv.owner u hu.1] at ho
    obtain ⟨hft, hfo⟩ := hv.succ u hu.1 t ht hti
    exact ⟨hti, hD.closed _ hu.2 ho _ hft hfo⟩
  parity C hC hsub p hp := by
    have hC' := hC.view hv (fun u hu => hD.inside (hsub hu).2)
      fun u hu ho => by
        obtain ⟨i, t, j, hi, ht, htw, hj, hft⟩ := hk u (hsub hu) ho
        obtain ⟨v, hvC, huv⟩ := hC.alive u hu
        obtain rfl := huv.eq_of_decided ho hi ht
        exact ⟨i, v, j, hi, ht, hvC, hj, hft⟩
    refine hD.parity _ hC' ?_ p ?_
    · rintro _ ⟨u, hu, rfl⟩
      exact (hsub hu).2
    · have himage : g.priority '' (f '' C) = h.priority '' C := by
        rw [Set.image_image]
        exact Set.image_congr fun u hu => (hv.priority u (hC.inside hu)).symm
      rwa [himage]

end Views

/-- Choices for single nodes make a strategy. -/
theorem Strategy.exists_choosing (n : Nat) {Q : Nat → Prop} {P : Nat → Nat → Prop}
    (h : ∀ v < n, Q v → ∃ i, P v i) : ∃ τ : Strategy, ∀ v < n, Q v → ∃ i, τ.get v = some i ∧ P v i := by
  classical
  refine ⟨⟨Array.ofFn fun v : Fin n => if hv : ∃ i, P v i then some hv.choose else none⟩, ?_⟩
  intro v hv hQ
  have hex := h v hv hQ
  refine ⟨hex.choose, ?_, hex.choose_spec⟩
  rw [Strategy.get_ofFn n fun v => if hv : ∃ i, P v i then some hv.choose else none, if_pos hv, dif_pos hex]

/-! ## Validity -/

/-- A game whose nodes and weights are those of a valid game is valid unless it has a dead end. -/
theorem Game.valid_iff_of_view [Scalar W] {g h : Game W} (hg : g.Valid) (f : Nat → Nat)
    (hnode : ∀ v < h.size, f v < g.size ∧ h.owner v = g.owner (f v) ∧ h.priority v = g.priority (f v))
    (hedge : ∀ v < h.size, ∀ e ∈ h.edges v, e.target < h.size ∧ ∃ e' ∈ g.edges (f v), e'.weight = e.weight) :
    h.Valid ↔ ∀ v < h.size, h.succs v ≠ [] := by
  rw [valid_iff]
  refine forall₂_congr fun v hv => ?_
  obtain ⟨hlt, howner, hprio⟩ := hnode v hv
  obtain ⟨hp, -, hw⟩ := valid_iff.mp hg _ hlt
  constructor
  · intro h'
    simpa [succs] using h'.2.1
  · intro hne
    refine ⟨hprio ▸ hp, by simpa [succs] using hne, fun e he => ?_⟩
    obtain ⟨ht, e', he', heq⟩ := hedge v hv e he
    rw [howner, ← heq]
    exact ⟨ht, (hw e' he').2⟩

/-! ## Subgames -/

section Renumbering

/-- Numbers the members of a list in turn, beginning with `k`. -/
private def renumber (l : List Nat) (k : Nat) (t : Array (Option Nat)) : Array (Option Nat) :=
  (l.zipIdx k).foldl (fun t (v, k) => t.setIfInBounds v (some k)) t

private theorem renumber_of_notMem {l : List Nat} {w : Nat} (hw : w ∉ l) (k : Nat)
    (t : Array (Option Nat)) : (renumber l k t)[w]? = t[w]? := by
  induction l generalizing k t with
  | nil => rfl
  | cons v l ih =>
    rw [List.mem_cons, not_or] at hw
    rw [renumber, List.zipIdx_cons, List.foldl_cons]
    refine (ih hw.2 (k + 1) _).trans ?_
    rw [Array.getElem?_setIfInBounds, if_neg fun h => hw.1 h.symm]

private theorem renumber_of_getElem? {l : List Nat} (hl : l.Nodup) {j w : Nat} (hj : l[j]? = some w)
    (k : Nat) {t : Array (Option Nat)} (hw : w < t.size) : (renumber l k t)[w]? = some (some (k + j)) := by
  induction l generalizing j k t with
  | nil => cases hj
  | cons v l ih =>
    obtain ⟨hv, hl⟩ := List.nodup_cons.mp hl
    rw [renumber, List.zipIdx_cons, List.foldl_cons]
    cases j with
    | zero =>
      obtain rfl : v = w := Option.some.inj hj
      refine (renumber_of_notMem hv (k + 1) _).trans ?_
      rw [Array.getElem?_setIfInBounds, if_pos rfl, if_pos hw, Nat.add_zero]
    | succ j =>
      refine (ih hl hj (k + 1) (by simpa using hw)).trans ?_
      rw [Nat.add_assoc, Nat.add_comm 1 j]

end Renumbering

namespace Game

variable {g : Game W} {R : NodeSet}

theorem lt_size_of_range_eq (hR : R.range = g.size) : ∀ v ∈ R, v < g.size :=
  fun _ hv => hR ▸ NodeSet.lt_range hv

theorem renumbering_eq_some_iff (hR : ∀ v ∈ R, v < g.size) {w k : Nat} :
    (g.renumbering R).getD w none = some k ↔ R.toList[k]? = some w := by
  have hget : (g.renumbering R).getD w none = ((renumber R.toList 0 (Array.replicate g.size none))[w]?).join := by
    rw [Array.getD_eq_getD_getElem?]
    change ((renumber R.toList 0 (Array.replicate g.size none))[w]?).getD none = _
    cases (renumber R.toList 0 (Array.replicate g.size none))[w]? <;> rfl
  rw [hget]
  by_cases hw : w ∈ R.toList
  · obtain ⟨j, hj⟩ := List.mem_iff_getElem?.mp hw
    have hlt : w < g.size := hR w ((NodeSet.mem_toList _ _).mp hw)
    rw [renumber_of_getElem? R.nodup_toList hj 0 (by simpa using hlt), Option.join_some, Nat.zero_add]
    constructor
    · intro h
      rwa [← Option.some.inj h]
    · intro h
      exact congrArg some ((List.getElem?_inj (List.getElem?_eq_some_iff.mp hj).1 R.nodup_toList).mp
        (hj.trans h.symm))
  · rw [renumber_of_notMem hw]
    constructor
    · intro h
      by_cases hlt : w < g.size
      · simp [hlt] at h
      · simp [hlt] at h
    · intro h
      exact absurd (List.mem_of_getElem? h) hw

@[simp] theorem size_subgame (g : Game W) (R : NodeSet) : (g.subgame R).game.size = R.size := by
  simp [subgame, size, NodeSet.size]

/-- The nodes of a subgame are the members of its set. -/
theorem exists_member {k : Nat} (hk : k < (g.subgame R).game.size) : ∃ v ∈ R, R.toList[k]? = some v := by
  rw [size_subgame, NodeSet.size] at hk
  exact ⟨R.toList[k], (NodeSet.mem_toList _ _).mp (List.getElem_mem hk), List.getElem?_eq_getElem hk⟩

theorem exists_number {v : Nat} (hv : v ∈ R) :
    ∃ k < (g.subgame R).game.size, R.toList[k]? = some v := by
  obtain ⟨k, hk⟩ := List.mem_iff_getElem?.mp ((NodeSet.mem_toList _ _).mpr hv)
  refine ⟨k, ?_, hk⟩
  rw [size_subgame, NodeSet.size]
  exact (List.getElem?_eq_some_iff.mp hk).1

section Member

variable {k v : Nat} (hk : R.toList[k]? = some v)

include hk

theorem orig_subgame : (g.subgame R).orig k = v := by
  simp [subgame, Subgame.orig, Array.getD_eq_getD_getElem?, hk]

theorem node_subgame : (g.subgame R).game.nodes[k]? = some ⟨g.owner v, g.priority v,
    (g.edgesInto R v).filterMap fun x => x.1.renumber? (g.renumbering R)⟩ := by
  simp [subgame, hk]

theorem owner_subgame : (g.subgame R).game.owner k = g.owner v := by
  simp [owner, node_subgame hk]

theorem priority_subgame : (g.subgame R).game.priority k = g.priority v := by
  simp [priority, node_subgame hk]

theorem positions_subgame : (g.subgame R).positions k = (g.edgesInto R v).map Prod.snd := by
  simp [subgame, Subgame.positions, Array.getD_eq_getD_getElem?, hk]

end Member

theorem mem_edgesInto {v i : Nat} {e : Edge W} :
    (e, i) ∈ g.edgesInto R v ↔ (g.edges v)[i]? = some e ∧ e.target ∈ R := by
  simp [edgesInto, List.mem_zipIdx_iff_getElem?]

section Edges

variable (hR : ∀ v ∈ R, v < g.size)

include hR

theorem renumber?_of_mem {e : Edge W} (he : e.target ∈ R) :
    e.renumber? (g.renumbering R) = some ⟨R.toList.idxOf e.target, e.weight⟩ := by
  have hnumber := (renumbering_eq_some_iff hR).mpr (List.getElem?_idxOf ((NodeSet.mem_toList _ _).mpr he))
  rw [Edge.renumber?, hnumber]
  rfl

variable {k v : Nat} (hk : R.toList[k]? = some v)

include hk

theorem edges_subgame : (g.subgame R).game.edges k =
    (g.edgesInto R v).map fun x => ⟨R.toList.idxOf x.1.target, x.1.weight⟩ := by
  have hedges : (g.subgame R).game.edges k =
      (g.edgesInto R v).filterMap fun x => x.1.renumber? (g.renumbering R) := by
    simp [edges, node_subgame hk]
  rw [hedges, List.filterMap_eq_map_iff_forall_eq_some]
  rintro ⟨e, i⟩ hx
  exact renumber?_of_mem hR (mem_edgesInto.mp hx).2

/-- An edge of a subgame stands for the edge of the game at its underlying position. -/
theorem edge_subgame {j : Nat} {e : Edge W} (he : ((g.subgame R).game.edges k)[j]? = some e) :
    e.target < (g.subgame R).game.size ∧
      (g.edges v)[(g.subgame R).origPosition k j]? = some ⟨(g.subgame R).orig e.target, e.weight⟩ := by
  rw [edges_subgame hR hk, List.getElem?_map] at he
  obtain ⟨⟨e', i⟩, hx, rfl⟩ := Option.map_eq_some_iff.mp he
  obtain ⟨hi, hmem⟩ := mem_edgesInto.mp (List.mem_of_getElem? hx)
  have htarget := List.getElem?_idxOf ((NodeSet.mem_toList _ _).mpr hmem)
  have hpos : (g.subgame R).origPosition k j = i := by
    rw [Subgame.origPosition, positions_subgame hk, List.getD_eq_getElem?_getD, List.getElem?_map, hx]
    rfl
  refine ⟨?_, ?_⟩
  · rw [size_subgame, NodeSet.size]
    exact (List.getElem?_eq_some_iff.mp htarget).1
  · rw [hpos, hi, orig_subgame htarget]

theorem succ?_subgame {j t : Nat} (ht : (g.subgame R).game.succ? k j = some t) :
    t < (g.subgame R).game.size ∧
      g.succ? v ((g.subgame R).origPosition k j) = some ((g.subgame R).orig t) := by
  rw [succ?, succs, List.getElem?_map] at ht
  obtain ⟨e, he, rfl⟩ := Option.map_eq_some_iff.mp ht
  obtain ⟨hlt, hedge⟩ := edge_subgame hR hk he
  refine ⟨hlt, ?_⟩
  rw [succ?, succs, List.getElem?_map, hedge]
  rfl

theorem mem_succs_subgame {t w : Nat} (hw : w ∈ g.succs v) (ht : R.toList[t]? = some w) :
    t ∈ (g.subgame R).game.succs k := by
  obtain ⟨e, he, rfl⟩ := List.mem_map.mp hw
  obtain ⟨i, hi⟩ := List.mem_iff_getElem?.mp he
  have hmem : (e, i) ∈ g.edgesInto R v :=
    mem_edgesInto.mpr ⟨hi, (NodeSet.mem_toList _ _).mp (List.mem_of_getElem? ht)⟩
  have hnumber : R.toList.idxOf e.target = t :=
    (List.getElem?_inj (List.idxOf_lt_length_of_mem (List.mem_of_getElem? ht)) R.nodup_toList).mp
      ((List.getElem?_idxOf (List.mem_of_getElem? ht)).trans ht.symm)
  rw [succs, edges_subgame hR hk, List.map_map]
  exact List.mem_map.mpr ⟨_, hmem, hnumber⟩

end Edges

/-- A subgame of a valid game is valid if every member of the set has a successor among them. -/
theorem valid_subgame_iff [Scalar W] (hg : g.Valid) (hR : R.range = g.size) :
    (g.subgame R).game.Valid ↔ g.Total R := by
  rw [valid_iff_of_view hg (g.subgame R).orig]
  · constructor
    · intro hne u hu
      obtain ⟨k, hlt, hk⟩ := exists_number (g := g) hu
      obtain ⟨t, ht⟩ := List.exists_mem_of_ne_nil _ (hne k hlt)
      obtain ⟨j, hj⟩ := (mem_succs_iff _ _ _).mp ht
      obtain ⟨htlt, hsucc⟩ := succ?_subgame (lt_size_of_range_eq hR) hk hj
      obtain ⟨w, hw, hwt⟩ := exists_member htlt
      rw [orig_subgame hwt] at hsucc
      exact ⟨w, mem_succs_of_succ? _ hsucc, hw⟩
    · intro htotal k hk
      obtain ⟨v, hv, hkv⟩ := exists_member hk
      obtain ⟨w, hw, hwR⟩ := htotal v hv
      obtain ⟨t, -, ht⟩ := exists_number (g := g) hwR
      exact List.ne_nil_of_mem (mem_succs_subgame (lt_size_of_range_eq hR) hkv hw ht)
  · intro k hk
    obtain ⟨v, hv, hkv⟩ := exists_member hk
    rw [orig_subgame hkv, owner_subgame hkv, priority_subgame hkv]
    exact ⟨hR ▸ NodeSet.lt_range hv, rfl, rfl⟩
  · intro k hk e he
    obtain ⟨v, hv, hkv⟩ := exists_member hk
    obtain ⟨j, hj⟩ := List.mem_iff_getElem?.mp he
    obtain ⟨hlt, hedge⟩ := edge_subgame (lt_size_of_range_eq hR) hkv hj
    rw [orig_subgame hkv]
    exact ⟨hlt, _, List.mem_of_getElem? hedge, rfl⟩

theorem view_subgame (hR : R.range = g.size) :
    (g.subgame R).game.View g (g.subgame R).orig (NodeSet.full (g.subgame R).game.size).toSet R.toSet where
  owner k hk := by
    obtain ⟨v, -, hkv⟩ := exists_member (NodeSet.mem_full.mp hk)
    rw [owner_subgame hkv, orig_subgame hkv]
  priority k hk := by
    obtain ⟨v, -, hkv⟩ := exists_member (NodeSet.mem_full.mp hk)
    rw [priority_subgame hkv, orig_subgame hkv]
  succ k hk t ht _ := by
    obtain ⟨v, -, hkv⟩ := exists_member (NodeSet.mem_full.mp hk)
    obtain ⟨j, hj⟩ := (mem_succs_iff _ _ _).mp ht
    obtain ⟨htlt, hsucc⟩ := succ?_subgame (lt_size_of_range_eq hR) hkv hj
    obtain ⟨w, hw, hwt⟩ := exists_member htlt
    rw [orig_subgame hwt] at hsucc ⊢
    rw [orig_subgame hkv]
    exact ⟨mem_succs_of_succ? _ hsucc, hw⟩
  chance k hk _ w hw hwR := by
    obtain ⟨v, -, hkv⟩ := exists_member (NodeSet.mem_full.mp hk)
    obtain ⟨t, htlt, ht⟩ := exists_number (g := g) hwR
    rw [orig_subgame hkv] at hw
    exact ⟨t, mem_succs_subgame (lt_size_of_range_eq hR) hkv hw ht, NodeSet.mem_full.mpr htlt, orig_subgame ht⟩

theorem orig_mem_of_lt {k : Nat} (hk : k < (g.subgame R).game.size) : (g.subgame R).orig k ∈ R := by
  obtain ⟨v, hv, hkv⟩ := exists_member hk
  rwa [orig_subgame hkv]

/-- Without chance a player holds all of the subgame on a region that it holds. -/
theorem exists_dominion_subgame [Scalar W] (hg : g.Valid) (hno : ∀ v < g.size, g.owner v ≠ .stochastic)
    (hR : R.range = g.size) {x : Player} {σ : Strategy}
    (hD : Dominion g x σ (NodeSet.full g.size).toSet R.toSet) :
    ∃ τ, Dominion (g.subgame R).game x τ (NodeSet.full (g.subgame R).game.size).toSet
      (NodeSet.full (g.subgame R).game.size).toSet := by
  have hview := view_subgame (g := g) hR
  -- edges that leave the region do not matter, since none is one of chance
  have hview' : (g.subgame R).game.View g (g.subgame R).orig
      (NodeSet.full (g.subgame R).game.size).toSet (NodeSet.full g.size).toSet :=
    { owner := hview.owner
      priority := hview.priority
      succ := fun k hk t ht hin => by
        obtain ⟨hsucc, -⟩ := hview.succ k hk t ht hin
        exact ⟨hsucc, NodeSet.mem_full.mpr (hg.succ_lt hsucc)⟩
      chance := fun k hk hs => by
        obtain ⟨v, hv, hkv⟩ := exists_member (NodeSet.mem_full.mp hk)
        rw [owner_subgame hkv] at hs
        exact absurd hs (hno v (hR ▸ NodeSet.lt_range hv)) }
  obtain ⟨τ, hτ⟩ := Strategy.exists_choosing (g.subgame R).game.size
    (Q := fun k => (g.subgame R).game.owner k = x)
    (P := fun k j => ∃ t i, (g.subgame R).game.succ? k j = some t ∧ t < (g.subgame R).game.size ∧
      σ.get ((g.subgame R).orig k) = some i ∧
      g.succ? ((g.subgame R).orig k) i = some ((g.subgame R).orig t)) fun k hk ho => by
      obtain ⟨v, hv, hkv⟩ := exists_member hk
      rw [owner_subgame hkv] at ho
      obtain ⟨i, w, hi, hw, hwR⟩ := hD.decided v hv ho
      obtain ⟨t, htlt, ht⟩ := exists_number (g := g) hwR
      obtain ⟨j, hj⟩ := (mem_succs_iff _ _ _).mp (mem_succs_subgame (lt_size_of_range_eq hR) hkv (g.mem_succs_of_succ? hw) ht)
      refine ⟨j, t, i, hj, htlt, ?_, ?_⟩
      · rwa [orig_subgame hkv]
      · rwa [orig_subgame hkv, orig_subgame ht]
  have hall : {k | k ∈ (NodeSet.full (g.subgame R).game.size).toSet ∧ (g.subgame R).orig k ∈ R.toSet} =
      (NodeSet.full (g.subgame R).game.size).toSet :=
    Set.ext fun k => ⟨fun hk => hk.1, fun hk => ⟨hk, orig_mem_of_lt (NodeSet.mem_full.mp hk)⟩⟩
  have hheld := hD.view hview' (τ := τ) fun k hk ho => by
    obtain ⟨j, hj, t, i, ht, htlt, hi, hsucc⟩ := hτ k (NodeSet.mem_full.mp hk.1) ho
    exact ⟨j, t, i, hj, ht, ⟨NodeSet.mem_full.mpr htlt, orig_mem_of_lt htlt⟩, hi, hsucc⟩
  rw [hall] at hheld
  exact ⟨τ, hheld⟩

/-! ### The whole game as a subgame -/

theorem orig_subgame_full {v : Nat} (hv : v < g.size) : (g.subgame (.full g.size)).orig v = v :=
  orig_subgame (NodeSet.getElem?_toList_full hv)

section Whole

variable [Scalar W] (hg : g.Valid)

include hg

theorem edgesInto_full (v : Nat) : g.edgesInto (.full g.size) v = (g.edges v).zipIdx := by
  rw [edgesInto, List.filter_eq_self]
  rintro ⟨e, i⟩ hmem
  have he : e ∈ g.edges v := List.mem_of_getElem? (List.mem_zipIdx_iff_getElem?.mp hmem)
  exact NodeSet.mem_full.mpr (hg.succ_lt (List.mem_map_of_mem he))

theorem filterMap_renumber?_full (v : Nat) :
    (g.edgesInto (.full g.size) v).filterMap (fun x => x.1.renumber? (g.renumbering (.full g.size))) =
      g.edges v := by
  have hkept : (g.edgesInto (.full g.size) v).map Prod.fst = g.edges v := by
    rw [edgesInto_full hg]
    exact List.zipIdx_map_fst 0 (g.edges v)
  refine Eq.trans ?_ hkept
  rw [List.filterMap_eq_map_iff_forall_eq_some]
  rintro ⟨e, i⟩ hmem
  have hlt : e.target < g.size := NodeSet.mem_full.mp (mem_edgesInto.mp hmem).2
  have hnumber := (renumbering_eq_some_iff (g := g) fun _ hv => NodeSet.mem_full.mp hv).mpr
    (NodeSet.getElem?_toList_full hlt)
  rw [Edge.renumber?, hnumber]
  rfl

theorem game_subgame_full : (g.subgame (.full g.size)).game = g := by
  have hnodes : (g.subgame (.full g.size)).game.nodes = g.nodes := by
    refine Array.ext_getElem? fun v => ?_
    by_cases hv : v < g.size
    · obtain ⟨n, hn⟩ := exists_node hv
      rw [node_subgame (NodeSet.getElem?_toList_full hv), filterMap_renumber?_full hg, hn]
      simp [owner, priority, edges, hn]
    · have hsize : (g.subgame (.full g.size)).game.nodes.size = g.size := by
        refine (size_subgame g _).trans ?_
        rw [NodeSet.size, NodeSet.toList_full, List.length_range]
      rw [Array.getElem?_eq_none (by omega), Array.getElem?_eq_none (Nat.le_of_not_lt hv)]
  exact congrArg Game.mk hnodes

theorem origPosition_subgame_full {v i : Nat} (hi : i < g.degree v) :
    (g.subgame (.full g.size)).origPosition v i = i := by
  have hv : v < g.size := g.lt_size_of_lt_degree hi
  have hpositions : (g.subgame (.full g.size)).positions v = List.range' 0 (g.degree v) := by
    rw [positions_subgame (NodeSet.getElem?_toList_full hv), edgesInto_full hg]
    exact List.zipIdx_map_snd 0 (g.edges v)
  rw [Subgame.origPosition, hpositions, List.getD_eq_getElem?_getD, List.getElem?_range' hi]
  simp

end Whole

/-! ## Restrictions -/

section Restrict

variable {positions : Nat → List Nat}

@[simp] theorem size_restrict : (g.restrict positions).game.size = g.size := by simp [restrict, size]

theorem node_restrict {v : Nat} (hv : v < g.size) : (g.restrict positions).game.nodes[v]? =
    some ⟨g.owner v, g.priority v, g.edgesAt v (positions v)⟩ := by
  simp [restrict, hv]

theorem owner_restrict {v : Nat} (hv : v < g.size) : (g.restrict positions).game.owner v = g.owner v := by
  simp [owner, node_restrict hv]

theorem priority_restrict {v : Nat} (hv : v < g.size) :
    (g.restrict positions).game.priority v = g.priority v := by
  simp [priority, node_restrict hv]

theorem edges_restrict {v : Nat} (hv : v < g.size) :
    (g.restrict positions).game.edges v = g.edgesAt v (positions v) := by
  simp [edges, node_restrict hv]

theorem positions_restrict {v : Nat} (hv : v < g.size) : (g.restrict positions).positions v = positions v := by
  simp [restrict, Restriction.positions, Array.getD_eq_getD_getElem?, hv]

theorem origPosition_restrict {v : Nat} (hv : v < g.size) (i : Nat) :
    (g.restrict positions).origPosition v i = (positions v).getD i 0 := by
  rw [Restriction.origPosition, positions_restrict hv]

variable (hpos : ∀ v < g.size, ∀ i ∈ positions v, i < g.degree v)

include hpos

theorem getElem?_edges_restrict {v : Nat} (hv : v < g.size) (j : Nat) :
    ((g.restrict positions).game.edges v)[j]? = (positions v)[j]?.bind fun i => (g.edges v)[i]? := by
  have hin := hpos v hv
  rw [edges_restrict hv, edgesAt]
  generalize positions v = ps at hin
  induction ps generalizing j with
  | nil => rfl
  | cons i ps ih =>
    have hi : i < (g.edges v).length := hin i List.mem_cons_self
    have hrest := fun j => ih j fun i' hi' => hin i' (List.mem_cons_of_mem i hi')
    rw [List.filterMap_cons, List.getElem?_eq_getElem hi]
    cases j with
    | zero => simp [List.getElem?_eq_getElem hi]
    | succ j => simpa using hrest j

theorem succ?_restrict {v : Nat} (hv : v < g.size) (j : Nat) :
    (g.restrict positions).game.succ? v j = (positions v)[j]?.bind (g.succ? v) := by
  rw [succ?, succs, List.getElem?_map, getElem?_edges_restrict hpos hv]
  cases (positions v)[j]? with
  | none => rfl
  | some i => simp [succ?, succs]

theorem succ?_origPosition_restrict {v j t : Nat} (hv : v < g.size)
    (h : (g.restrict positions).game.succ? v j = some t) :
    g.succ? v ((g.restrict positions).origPosition v j) = some t := by
  rw [succ?_restrict hpos hv] at h
  obtain ⟨i, hi, hsucc⟩ := Option.bind_eq_some_iff.mp h
  rw [origPosition_restrict hv, List.getD_eq_getElem?_getD, hi]
  exact hsucc

/-- A restriction of a valid game is valid if it leaves every node an edge. -/
theorem valid_restrict_iff [Scalar W] (hg : g.Valid) :
    (g.restrict positions).game.Valid ↔ ∀ v < g.size, positions v ≠ [] := by
  rw [valid_iff_of_view hg id]
  · rw [size_restrict]
    refine forall₂_congr fun v hv => ?_
    constructor
    · intro hne hnil
      rw [succs, edges_restrict hv, edgesAt, hnil] at hne
      exact hne rfl
    · intro hne
      obtain ⟨i, hi⟩ := List.exists_mem_of_ne_nil _ hne
      obtain ⟨j, hj⟩ := List.mem_iff_getElem?.mp hi
      obtain ⟨t, ht⟩ := g.exists_succ?_of_lt_degree (hpos v hv i hi)
      have hsucc : (g.restrict positions).game.succ? v j = some t := by
        rw [succ?_restrict hpos hv, hj, Option.bind_some, ht]
      exact List.ne_nil_of_mem (mem_succs_of_succ? _ hsucc)
  · intro v hv
    rw [size_restrict] at hv
    exact ⟨hv, owner_restrict hv, priority_restrict hv⟩
  · intro v hv e he
    rw [size_restrict] at hv ⊢
    rw [edges_restrict hv] at he
    obtain ⟨i, -, hi⟩ := List.mem_filterMap.mp he
    have hmem := List.mem_of_getElem? hi
    exact ⟨((valid_iff.mp hg v hv).2.2 e hmem).1, e, hmem, rfl⟩

theorem view_restrict
    (hchance : ∀ v < g.size, g.owner v = .stochastic → ∀ i < g.degree v, i ∈ positions v) :
    (g.restrict positions).game.View g id (NodeSet.full g.size).toSet (NodeSet.full g.size).toSet where
  owner v hv := owner_restrict (NodeSet.mem_full.mp hv)
  priority v hv := priority_restrict (NodeSet.mem_full.mp hv)
  succ v hv t ht hlt := by
    obtain ⟨j, hj⟩ := (mem_succs_iff _ _ _).mp ht
    rw [succ?_restrict hpos (NodeSet.mem_full.mp hv)] at hj
    obtain ⟨i, -, hi⟩ := Option.bind_eq_some_iff.mp hj
    exact ⟨g.mem_succs_of_succ? hi, hlt⟩
  chance v hv hs w hw hlt := by
    have hv' := NodeSet.mem_full.mp hv
    rw [owner_restrict hv'] at hs
    obtain ⟨i, hi⟩ := (g.mem_succs_iff v w).mp hw
    obtain ⟨j, hj⟩ := List.mem_iff_getElem?.mp (hchance v hv' hs i (g.lt_degree_of_succ? hi))
    refine ⟨w, mem_succs_of_succ? (i := j) _ ?_, hlt, rfl⟩
    rw [succ?_restrict hpos hv', hj, Option.bind_some, hi]

/-- A player holds its region also where only its own other edges are dropped, and some of the opponent's. -/
theorem exists_dominion_restrict
    (hchance : ∀ v < g.size, g.owner v = .stochastic → ∀ i < g.degree v, i ∈ positions v) {x : Player}
    {σ : Strategy} {won : Set Nat} (hD : Dominion g x σ (NodeSet.full g.size).toSet won)
    (hkeep : ∀ v ∈ won, g.owner v = x → ∀ i, σ.get v = some i → i ∈ positions v) :
    ∃ τ, Dominion (g.restrict positions).game x τ (NodeSet.full g.size).toSet won := by
  have hlt : ∀ {v}, v ∈ won → v < g.size := fun hv => NodeSet.mem_full.mp (hD.inside hv)
  have hwon : {v | v ∈ (NodeSet.full g.size).toSet ∧ id v ∈ won} = won :=
    Set.ext fun v => ⟨fun hv => hv.2, fun hv => ⟨hD.inside hv, hv⟩⟩
  obtain ⟨τ, hτ⟩ := Strategy.exists_choosing g.size (Q := fun v => v ∈ won ∧ g.owner v = x)
    (P := fun v j => ∃ i, (positions v)[j]? = some i ∧ σ.get v = some i) fun v _ hQ => by
      obtain ⟨i, t, hi, -⟩ := hD.decided v hQ.1 hQ.2
      obtain ⟨j, hj⟩ := List.mem_iff_getElem?.mp (hkeep v hQ.1 hQ.2 i hi)
      exact ⟨j, i, hj, hi⟩
  refine ⟨τ, hwon ▸ hD.view (view_restrict hpos hchance) ?_⟩
  rw [hwon]
  intro v hv ho
  rw [owner_restrict (hlt hv)] at ho
  obtain ⟨j, hj, i, hi, hget⟩ := hτ v (hlt hv) ⟨hv, ho⟩
  obtain ⟨i', t, hi', ht, htw⟩ := hD.decided v hv ho
  obtain rfl : i = i' := Option.some.inj (hget.symm.trans hi')
  refine ⟨j, t, i, hj, ?_, htw, hget, ht⟩
  rw [succ?_restrict hpos (hlt hv), hi, Option.bind_some, ht]

end Restrict

theorem lt_degree_of_mem_filter {p : Nat → Nat → Bool} :
    ∀ v < g.size, ∀ i ∈ (List.range (g.degree v)).filter (p v), i < g.degree v :=
  fun _ _ _ hi => List.mem_range.mp (List.mem_filter.mp hi).1

/-- Keeping some edges of a valid game gives a valid one if every node keeps one. -/
theorem valid_keepEdges_iff [Scalar W] (hg : g.Valid) (p : Nat → Nat → Bool) :
    (g.keepEdges p).game.Valid ↔ ∀ v < g.size, ∃ i < g.degree v, p v i = true := by
  rw [keepEdges, valid_restrict_iff lt_degree_of_mem_filter hg]
  refine forall₂_congr fun v _ => ?_
  simp [List.filter_eq_nil_iff]

end Game

def Strategy.Fits (σ : Strategy) (g : Game W) : Prop := ∀ v i, σ.get v = some i → i < g.degree v

namespace Game

variable {g : Game W} {σ : Strategy} {x : Player}

theorem lt_degree_of_mem_openPositions (hσ : σ.Fits g) :
    ∀ v < g.size, ∀ i ∈ g.openPositions σ x v, i < g.degree v := by
  intro v _ i hi
  rw [openPositions] at hi
  split at hi
  · rename_i j hj
    split at hi
    · obtain rfl := List.mem_singleton.mp hi
      exact hσ v i hj
    · exact List.mem_range.mp hi
  · exact List.mem_range.mp hi

/-- Where the player has decided, only that edge is left. -/
theorem openPositions_of_decided {v i : Nat} (ho : g.owner v = x) (hi : σ.get v = some i) :
    g.openPositions σ x v = [i] := by
  simp [openPositions, ho, hi]

theorem openPositions_of_owner_ne {v : Nat} (ho : g.owner v ≠ x) :
    g.openPositions σ x v = List.range (g.degree v) := by
  rw [openPositions]
  split
  · rw [if_neg ho]
  · rfl

theorem openPositions_ne_nil [Scalar W] (hg : g.Valid) {v : Nat} (hv : v < g.size) :
    g.openPositions σ x v ≠ [] := by
  have hdeg : List.range (g.degree v) ≠ [] := by
    have hne := List.length_pos_of_ne_nil (hg.succs_ne_nil hv)
    rw [length_succs] at hne
    simp only [ne_eq, List.range_eq_nil]
    omega
  rw [openPositions]
  split
  · split
    · simp
    · exact hdeg
  · exact hdeg

/-- Following decisions that name edges leaves a valid game valid. -/
theorem valid_induced [Scalar W] (hg : g.Valid) (hσ : σ.Fits g) : (g.induced σ x).game.Valid :=
  (valid_restrict_iff (lt_degree_of_mem_openPositions hσ) hg).mpr fun _ => openPositions_ne_nil hg

end Game

end OmegaGames
