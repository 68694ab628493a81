import OmegaGames.Proofs.Views
import Mathlib.Data.List.GetD

/-!
# Views are exact

A subgame has the members of its set as its nodes, in their order, and the edges between them; a
restriction by a mask has the marked edges. Neither adds an edge, drops another one or changes their order,
and the underlying position of an edge always names the edge that it stands for.
-/
namespace OmegaGames

variable {W : Type}

/-- A game shows part of another one. Its nodes stand for nodes there, and its edges for the edges there
that are to be kept, in their order and with their weights. -/
structure Game.Shows (h g : Game W) (orig : Nat → Nat) (position : Nat → Nat → Nat)
    (Keep : Nat → Nat → Prop) : Prop where
  node : ∀ k < h.size, orig k < g.size ∧ h.owner k = g.owner (orig k) ∧ h.priority k = g.priority (orig k)
  increasing : ∀ k < h.size, ∀ i j, i < j → j < h.degree k → position k i < position k j
  kept : ∀ k < h.size, ∀ i, (∃ j < h.degree k, position k j = i) ↔ Keep (orig k) i
  edge : ∀ k < h.size, ∀ j e, (h.edges k)[j]? = some e →
    e.target < h.size ∧ (g.edges (orig k))[position k j]? = some ⟨orig e.target, e.weight⟩

section Positions

variable {ps : List Nat}

private theorem getD_lt_getD (hps : ps.Pairwise (· < ·)) {i j : Nat} (hij : i < j) (hj : j < ps.length) :
    ps.getD i 0 < ps.getD j 0 := by
  have hlt := List.pairwise_iff_getElem.mp hps i j (Nat.lt_trans hij hj) hj hij
  rwa [List.getD_eq_getElem _ _ (Nat.lt_trans hij hj), List.getD_eq_getElem _ _ hj]

private theorem exists_getD_iff {i : Nat} : (∃ j < ps.length, ps.getD j 0 = i) ↔ i ∈ ps := by
  rw [List.mem_iff_getElem]
  refine exists_congr fun j => ⟨?_, ?_⟩
  · rintro ⟨hj, rfl⟩
    exact ⟨hj, (List.getD_eq_getElem _ _ hj).symm⟩
  · rintro ⟨hj, rfl⟩
    exact ⟨hj, List.getD_eq_getElem _ _ hj⟩

/-- It is enough to list the positions of each node's edges. -/
theorem Game.Shows.of_positions {h g : Game W} {orig : Nat → Nat} {positions : Nat → List Nat}
    {Keep : Nat → Nat → Prop}
    (hnode : ∀ k < h.size,
      orig k < g.size ∧ h.owner k = g.owner (orig k) ∧ h.priority k = g.priority (orig k))
    (hdegree : ∀ k < h.size, h.degree k = (positions k).length)
    (hsorted : ∀ k < h.size, (positions k).Pairwise (· < ·))
    (hmem : ∀ k < h.size, ∀ i, i ∈ positions k ↔ Keep (orig k) i)
    (hedge : ∀ k < h.size, ∀ j e, (h.edges k)[j]? = some e →
      e.target < h.size ∧ (g.edges (orig k))[(positions k).getD j 0]? = some ⟨orig e.target, e.weight⟩) :
    h.Shows g orig (fun k j => (positions k).getD j 0) Keep where
  node := hnode
  increasing k hk _ _ hij hj := getD_lt_getD (hsorted k hk) hij (by rwa [hdegree k hk] at hj)
  kept k hk i := by
    rw [hdegree k hk]
    exact exists_getD_iff.trans (hmem k hk i)
  edge := hedge

end Positions

/-! ## Subgames -/

/-- A subgame numbers the members of a set in increasing order. -/
structure Subgame.Numbers (s : Subgame W) (R : NodeSet) : Prop where
  increasing : ∀ j k, j < k → k < s.game.size → s.orig j < s.orig k
  members : ∀ v, v ∈ R ↔ ∃ k < s.game.size, s.orig k = v
  inverse : ∀ v k, s.sub? v = some k ↔ k < s.game.size ∧ s.orig k = v

theorem NodeSet.pairwise_toList (R : NodeSet) : R.toList.Pairwise (· < ·) :=
  List.pairwise_lt_range.sublist List.filter_sublist

namespace Game

variable {g : Game W} {R : NodeSet}

theorem orig_subgame_eq (k : Nat) : (g.subgame R).orig k = R.toList.getD k 0 := by
  simp [subgame, Subgame.orig, Array.getD_eq_getD_getElem?, List.getD_eq_getElem?_getD]

theorem getElem?_toList_iff {k v : Nat} :
    R.toList[k]? = some v ↔ k < (g.subgame R).game.size ∧ (g.subgame R).orig k = v := by
  constructor
  · intro hk
    refine ⟨?_, orig_subgame hk⟩
    rw [size_subgame, NodeSet.size]
    exact (List.getElem?_eq_some_iff.mp hk).1
  · rintro ⟨hk, rfl⟩
    obtain ⟨w, -, hw⟩ := exists_member hk
    rw [orig_subgame hw, hw]

theorem numbers_subgame (hR : ∀ v ∈ R, v < g.size) : (g.subgame R).Numbers R where
  increasing j k hjk hk := by
    rw [orig_subgame_eq, orig_subgame_eq]
    exact getD_lt_getD R.pairwise_toList hjk (by rwa [size_subgame] at hk)
  members v := by
    rw [NodeSet.mem_iff, ← NodeSet.mem_toList, List.mem_iff_getElem?]
    exact exists_congr fun k => getElem?_toList_iff
  inverse v k := (renumbering_eq_some_iff hR).trans getElem?_toList_iff

theorem hidesEdge_eq_false (hR : ∀ v ∈ R, v < g.size) : g.hidesEdge R = false := by
  rw [hidesEdge, List.any_eq_false]
  intro v _
  rw [Bool.not_eq_true, List.any_eq_false]
  rintro ⟨e, i⟩ hx
  rw [renumber?_of_mem hR (mem_edgesInto.mp hx).2]
  exact Bool.false_ne_true

theorem pairwise_edgesInto (v : Nat) : ((g.edgesInto R v).map Prod.snd).Pairwise (· < ·) := by
  have hsub : ((g.edgesInto R v).map Prod.snd).Sublist ((g.edges v).zipIdx.map Prod.snd) :=
    List.filter_sublist.map _
  rw [List.zipIdx_map_snd, ← List.range_eq_range'] at hsub
  exact List.pairwise_lt_range.sublist hsub

theorem mem_map_edgesInto {v i : Nat} :
    i ∈ (g.edgesInto R v).map Prod.snd ↔ ∃ w ∈ R, g.succ? v i = some w := by
  rw [List.mem_map]
  simp only [succ?, succs, List.getElem?_map, Option.map_eq_some_iff]
  constructor
  · rintro ⟨⟨e, i⟩, hx, rfl⟩
    obtain ⟨hi, he⟩ := mem_edgesInto.mp hx
    exact ⟨e.target, he, e, hi, rfl⟩
  · rintro ⟨_, hw, e, he, rfl⟩
    exact ⟨(e, i), mem_edgesInto.mpr ⟨he, hw⟩, rfl⟩

theorem shows_subgame (hR : ∀ v ∈ R, v < g.size) :
    (g.subgame R).game.Shows g (g.subgame R).orig (g.subgame R).origPosition
      fun v i => ∃ w ∈ R, g.succ? v i = some w := by
  refine Shows.of_positions ?_ ?_ ?_ ?_ ?_ <;> intro k hk <;> obtain ⟨v, hv, hkv⟩ := exists_member hk
  · rw [orig_subgame hkv]
    exact ⟨hR v hv, owner_subgame hkv, priority_subgame hkv⟩
  · rw [degree, edges_subgame hR hkv, positions_subgame hkv, List.length_map, List.length_map]
  · rw [positions_subgame hkv]
    exact pairwise_edgesInto v
  · intro i
    rw [positions_subgame hkv, orig_subgame hkv]
    exact mem_map_edgesInto
  · intro j e he
    rw [orig_subgame hkv]
    exact edge_subgame hR hkv he

end Game

/-! ## Masks -/

namespace EdgeMask

variable {g : Game W} {m : EdgeMask} {u v i j : Nat}

def numberOf (g : Game W) (v i : Nat) : Nat := groupStart ((List.range g.size).map g.degree) v + i

theorem getElem?_degrees (hi : i < g.degree v) :
    ((List.range g.size).map g.degree)[v]? = some (g.degree v) := by
  simp [g.lt_size_of_lt_degree hi]

theorem numberOf_inj (hi : i < g.degree u) (hj : j < g.degree v) :
    numberOf g u i = numberOf g v j ↔ (u, i) = (v, j) := by
  rw [Prod.mk.injEq]
  constructor
  · exact eq_of_groupStart_add_eq (getElem?_degrees hi) hi (getElem?_degrees hj) hj
  · rintro ⟨rfl, rfl⟩
    rfl

structure Fits (m : EdgeMask) (g : Game W) : Prop where
  offsets : m.offsets = edgeOffsets g
  bits_size : m.bits.size = groupStart ((List.range g.size).map g.degree) g.size

theorem fits_blank (g : Game W) : (blank g).Fits g where
  offsets := rfl
  bits_size := by
    rw [blank, Array.size_replicate, edgeOffsets, back?_partialSums, Option.getD_some, List.length_map,
      List.length_range]

namespace Fits

theorem numberOf_lt (h : m.Fits g) (hi : i < g.degree v) : numberOf g v i < m.bits.size := by
  rw [h.bits_size]
  exact groupStart_add_lt (getElem?_degrees hi) hi (g.lt_size_of_lt_degree hi) (by simp)

theorem edgeNumber?_eq (h : m.Fits g) (hi : i < g.degree v) : m.edgeNumber? v i = some (numberOf g v i) := by
  have hv := g.lt_size_of_lt_degree hi
  have hoffset : m.offsets[v]? = some (groupStart ((List.range g.size).map g.degree) v) := by
    rw [h.offsets, edgeOffsets]
    exact getElem?_partialSums (by simpa using Nat.le_of_lt hv)
  rw [edgeNumber?, hoffset]
  exact if_pos (h.numberOf_lt hi)

theorem contains_eq (h : m.Fits g) (hi : i < g.degree v) :
    m.contains v i = m.bits.getD (numberOf g v i) false := by
  rw [contains, h.edgeNumber?_eq hi]

theorem mark (h : m.Fits g) (hi : i < g.degree v) :
    ∃ m', m.mark? v i = some m' ∧ m'.Fits g ∧
      ∀ u j, j < g.degree u → (m'.contains u j = true ↔ m.contains u j = true ∨ (u, j) = (v, i)) := by
  have hfits : Fits { m with bits := m.bits.setIfInBounds (numberOf g v i) true } g :=
    ⟨h.offsets, by rw [Array.size_setIfInBounds, h.bits_size]⟩
  refine ⟨_, by rw [mark?, h.edgeNumber?_eq hi]; rfl, hfits, fun u j hj => ?_⟩
  rw [hfits.contains_eq hj, h.contains_eq hj, Array.getD_eq_getD_getElem?, Array.getD_eq_getD_getElem?,
    Array.getElem?_setIfInBounds]
  by_cases heq : (u, j) = (v, i)
  · rw [if_pos ((numberOf_inj hi hj).mpr heq.symm), if_pos (h.numberOf_lt hi)]
    simp [heq]
  · rw [if_neg fun hnumber => heq ((numberOf_inj hi hj).mp hnumber).symm]
    simp [heq]

theorem foldlM (h : m.Fits g) {edges : List (Nat × Nat)} (hedges : ∀ x ∈ edges, x.2 < g.degree x.1) :
    ∃ m', edges.foldlM (fun m x => m.mark? x.1 x.2) m = some m' ∧
      ∀ u j, j < g.degree u → (m'.contains u j = true ↔ m.contains u j = true ∨ (u, j) ∈ edges) := by
  induction edges generalizing m with
  | nil => exact ⟨m, rfl, fun u j _ => by simp⟩
  | cons x edges ih =>
    obtain ⟨m₁, hm₁, hfits, hcontains₁⟩ := h.mark (hedges x List.mem_cons_self)
    obtain ⟨m', hm', hcontains'⟩ := ih hfits fun y hy => hedges y (List.mem_cons_of_mem x hy)
    refine ⟨m', ?_, fun u j hj => ?_⟩
    · rw [List.foldlM_cons, hm₁]
      exact hm'
    · rw [hcontains' u j hj, hcontains₁ u j hj, List.mem_cons, or_assoc]

end Fits

/-- Edges can always be marked, and then those and no others are. -/
theorem exists_ofList? {edges : List (Nat × Nat)} (hedges : ∀ x ∈ edges, x.2 < g.degree x.1) :
    ∃ m, ofList? g edges = some m ∧
      ∀ v i, i < g.degree v → (m.contains v i = true ↔ (v, i) ∈ edges) := by
  obtain ⟨m, hm, hcontains⟩ := (fits_blank g).foldlM hedges
  refine ⟨m, hm, fun v i hi => ?_⟩
  have hblank : (blank g).contains v i = false := by
    rw [(fits_blank g).contains_eq hi, blank, Array.getD_eq_getD_getElem?, Array.getElem?_replicate]
    split <;> rfl
  rw [hcontains v i hi, hblank]
  simp

end EdgeMask

namespace Game

variable {g : Game W}

/-- A restriction to increasing positions shows the edges there. -/
theorem shows_restrict (hg : ∀ u, ∀ v ∈ g.succs u, v < g.size) {positions : Nat → List Nat}
    {Keep : Nat → Nat → Prop} (hpos : ∀ v < g.size, ∀ i ∈ positions v, i < g.degree v)
    (hsorted : ∀ v < g.size, (positions v).Pairwise (· < ·))
    (hmem : ∀ v < g.size, ∀ i, i ∈ positions v ↔ Keep v i) :
    (g.restrict positions).game.Shows g id (g.restrict positions).origPosition Keep := by
  refine Shows.of_positions ?_ ?_ ?_ ?_ ?_ <;> rw [size_restrict] <;> intro v hv
  · exact ⟨hv, owner_restrict hv, priority_restrict hv⟩
  · rw [degree, edges_restrict hv, edgesAt, List.length_filterMap_eq_countP, positions_restrict hv,
      List.countP_eq_length]
    intro i hi
    have hlt : i < (g.edges v).length := hpos v hv i hi
    rw [List.getElem?_eq_getElem hlt, Option.isSome_some]
  · rw [positions_restrict hv]
    exact hsorted v hv
  · intro i
    rw [positions_restrict hv]
    exact hmem v hv i
  · intro j e he
    rw [getElem?_edges_restrict hpos hv] at he
    obtain ⟨i, hi, hedge⟩ := Option.bind_eq_some_iff.mp he
    rw [positions_restrict hv, List.getD_eq_getElem?_getD, hi]
    exact ⟨hg v _ (List.mem_map_of_mem (List.mem_of_getElem? hedge)), hedge⟩

/-- The views of a game whose edges all stay inside it are exact. The subgame on any set of its nodes can be
taken, with no hidden edge, and shows the edges that end in the set; the restriction by a mask shows the
edges that were marked. -/
theorem views_exact (g : Game W) (hg : ∀ u, ∀ v ∈ g.succs u, v < g.size) :
    (∀ R : NodeSet, (∀ v ∈ R, v < g.size) → g.hidesEdge R = false ∧
      ∃ s, g.subgame? R = some s ∧ s.Numbers R ∧
        s.game.Shows g s.orig s.origPosition fun v i => ∃ w ∈ R, g.succ? v i = some w) ∧
    ∀ edges : List (Nat × Nat), (∀ x ∈ edges, x.2 < g.degree x.1) →
      ∃ m, EdgeMask.ofList? g edges = some m ∧ (g.mask m).game.size = g.size ∧
        (g.mask m).game.Shows g id (g.mask m).origPosition fun v i => (v, i) ∈ edges := by
  constructor
  · intro R hR
    have hhidden := hidesEdge_eq_false hR
    have hwithin : R.within g.size = true := by simpa [NodeSet.within] using hR
    exact ⟨hhidden, g.subgame R, by simp [subgame?, hwithin, hhidden], numbers_subgame hR, shows_subgame hR⟩
  · intro edges hedges
    obtain ⟨m, hm, hcontains⟩ := EdgeMask.exists_ofList? hedges
    refine ⟨m, hm, size_restrict, shows_restrict hg lt_degree_of_mem_filter ?_ ?_⟩
    · exact fun v _ => List.pairwise_lt_range.sublist List.filter_sublist
    · intro v _ i
      rw [List.mem_filter, List.mem_range]
      constructor
      · rintro ⟨hi, hmarked⟩
        exact (hcontains v i hi).mp hmarked
      · intro hmem
        exact ⟨hedges _ hmem, (hcontains v i (hedges _ hmem)).mpr hmem⟩

/-- The braid without its middle node, and with three of its edges marked, one of them twice. -/
theorem views_exact_braid : (∀ u, ∀ v ∈ braid.succs u, v < braid.size) ∧
    (∃ s, braid.subgame? (.ofList 3 [2, 0]) = some s ∧ s.Numbers (.ofList 3 [2, 0]) ∧
      s.game.Shows braid s.orig s.origPosition
        (fun v i => ∃ w ∈ NodeSet.ofList 3 [2, 0], braid.succ? v i = some w) ∧
      s.game.succs 0 = [1] ∧ s.positions 0 = [1]) ∧
    ∃ m, EdgeMask.ofList? braid [(2, 1), (0, 2), (0, 0), (0, 2)] = some m ∧ (braid.mask m).game.size = 3 ∧
      (braid.mask m).game.Shows braid id (braid.mask m).origPosition
        (fun v i => (v, i) ∈ [(2, 1), (0, 2), (0, 0), (0, 2)]) ∧
      (braid.mask m).game.succs 0 = [1, 1] ∧ (braid.mask m).positions 0 = [0, 2] := by
  have hclosed : ∀ u, ∀ v ∈ braid.succs u, v < braid.size := braid.isClosed_iff.mp (by decide +kernel)
  obtain ⟨hsubgame, hmask⟩ := braid.views_exact hclosed
  obtain ⟨-, s, hs, hnumbers, hshows⟩ :=
    hsubgame (.ofList 3 [2, 0]) (lt_size_of_range_eq (by decide +kernel))
  obtain ⟨m, hm, hsize, hshows'⟩ := hmask [(2, 1), (0, 2), (0, 0), (0, 2)] (by decide +kernel)
  obtain rfl : braid.subgame (.ofList 3 [2, 0]) = s := by
    rw [subgame?] at hs
    split at hs
    · exact Option.some.inj hs
    · cases hs
  have hmasked : (EdgeMask.ofList? braid [(2, 1), (0, 2), (0, 0), (0, 2)]).any (fun m =>
      (braid.mask m).game.succs 0 = [1, 1] ∧ (braid.mask m).positions 0 = [0, 2]) = true := by decide +kernel
  rw [hm, Option.any_some, decide_eq_true_eq] at hmasked
  exact ⟨hclosed, ⟨_, hs, hnumbers, hshows, by decide +kernel, by decide +kernel⟩,
    m, hm, hsize, hshows', hmasked⟩

end Game

end OmegaGames
