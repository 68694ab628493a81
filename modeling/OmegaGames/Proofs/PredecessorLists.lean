import OmegaGames.Game.Predecessors
import OmegaGames.Proofs.Edges
import Mathlib.Data.List.Pairwise

/-!
# Predecessor lists

Successors by position and predecessor lists are two views of the same edges. While the edges are filed,
the part of the table that belongs to a node holds the edges to it so far, in the order in which they
came, and its next free place is the one behind them; the counts leave room for all of them. So in the end
a node's list holds every edge to it once, in the order of the sources and then of the positions.
-/
namespace OmegaGames

def PlacedEdge.place (e : PlacedEdge) : Nat × Nat := (e.source, e.position)

def edgesTo (es : List PlacedEdge) (v : Nat) : List PlacedEdge := es.filter (·.target = v)

theorem edgesTo_append (es es' : List PlacedEdge) (v : Nat) :
    edgesTo (es ++ es') v = edgesTo es v ++ edgesTo es' v := List.filter_append ..

theorem edgesTo_append_self (es : List PlacedEdge) (e : PlacedEdge) :
    edgesTo (es ++ [e]) e.target = edgesTo es e.target ++ [e] := by
  simp [edgesTo]

theorem edgesTo_append_of_ne (es : List PlacedEdge) {e : PlacedEdge} {v : Nat} (h : e.target ≠ v) :
    edgesTo (es ++ [e]) v = edgesTo es v := by
  simp [edgesTo, h]

def Predecessors.Before (a b : Nat × Nat) : Prop := a.1 < b.1 ∨ a.1 = b.1 ∧ a.2 < b.2

/-! ## Filing -/

namespace Filing

/-- The place behind the edges to a node that have been filed. -/
def freePlace (sizes : List Nat) (done : List PlacedEdge) (v : Nat) : Nat :=
  groupStart sizes v + (edgesTo done v).length

/-- No node has more edges than there are cells in its group. -/
def Room (sizes : List Nat) (es : List PlacedEdge) : Prop :=
  ∀ v n, sizes[v]? = some n → (edgesTo es v).length ≤ n

/-- Some edges have been filed into groups of the given sizes. -/
structure Holds (f : Filing) (sizes : List Nat) (done : List PlacedEdge) : Prop where
  next_size : f.next.size = sizes.length + 1
  next : ∀ v ≤ sizes.length, f.next[v]? = some (freePlace sizes done v)
  table_size : f.table.size = groupStart sizes sizes.length
  filed : ∀ v < sizes.length, ∀ j < (edgesTo done v).length,
    f.table[groupStart sizes v + j]? = ((edgesTo done v).map PlacedEdge.place)[j]?

variable {f : Filing} {sizes : List Nat} {done : List PlacedEdge} {e : PlacedEdge}

theorem holds_blank (sizes : List Nat) :
    Holds ⟨partialSums sizes, Array.replicate ((partialSums sizes).back?.getD 0) (0, 0)⟩ sizes [] where
  next_size := size_partialSums sizes
  next _ hv := getElem?_partialSums hv
  table_size := by rw [Array.size_replicate, back?_partialSums, Option.getD_some]
  filed _ _ j hj := absurd hj (Nat.not_lt_zero j)

theorem Room.length_lt (h : Room sizes (done ++ [e])) {n : Nat} (hn : sizes[e.target]? = some n) :
    (edgesTo done e.target).length < n := by
  have hle := h _ _ hn
  rwa [edgesTo_append_self, List.length_append] at hle

theorem Room.of_append {es : List PlacedEdge} (h : Room sizes (done ++ es)) : Room sizes done := by
  intro v n hn
  have hle := h v n hn
  rw [edgesTo_append, List.length_append] at hle
  omega

/-- The next free place of a node is not taken by an edge to any node. -/
theorem Room.freePlace_ne (h : Room sizes (done ++ [e])) (he : e.target ≤ sizes.length) {v j : Nat}
    (hv : v < sizes.length) (hj : j < (edgesTo done v).length) :
    freePlace sizes done e.target ≠ groupStart sizes v + j := by
  have hn := List.getElem?_eq_getElem hv
  have hjn : j < sizes[v] := Nat.lt_of_lt_of_le hj (h.of_append v _ hn)
  intro heq
  by_cases hlt : e.target < sizes.length
  · have hm := List.getElem?_eq_getElem hlt
    obtain ⟨rfl, rfl⟩ := eq_of_groupStart_add_eq hm (h.length_lt hm) hn hjn heq
    exact Nat.lt_irrefl _ hj
  · have hbefore := groupStart_add_lt hn hjn (Nat.lt_of_lt_of_le hv (Nat.le_of_not_lt hlt)) he
    rw [freePlace] at heq
    omega

namespace Holds

theorem file_eq (h : f.Holds sizes done) (he : e.target ≤ sizes.length) :
    f.file e = ⟨f.next.setIfInBounds e.target (freePlace sizes done e.target + 1),
      f.table.setIfInBounds (freePlace sizes done e.target) e.place⟩ := by
  rw [Filing.file, h.next e.target he]
  rfl

/-- After one more edge every node's part of the table has the edges to it. -/
theorem filed_file (h : f.Holds sizes done) (hroom : Room sizes (done ++ [e])) (he : e.target ≤ sizes.length)
    {v j : Nat} (hv : v < sizes.length) (hj : j < (edgesTo (done ++ [e]) v).length) :
    (f.file e).table[groupStart sizes v + j]? = ((edgesTo (done ++ [e]) v).map PlacedEdge.place)[j]? := by
  rw [h.file_eq he]
  have hold : ∀ j < (edgesTo done v).length,
      (f.table.setIfInBounds (freePlace sizes done e.target) e.place)[groupStart sizes v + j]? =
        ((edgesTo done v).map PlacedEdge.place)[j]? := by
    intro j hj
    rw [Array.getElem?_setIfInBounds, if_neg (hroom.freePlace_ne he hv hj), h.filed v hv j hj]
  by_cases hev : e.target = v
  · subst hev
    rw [edgesTo_append_self, List.length_append, List.length_singleton] at hj
    rw [edgesTo_append_self, List.map_append]
    by_cases hlast : j = (edgesTo done e.target).length
    · subst hlast
      have hn := List.getElem?_eq_getElem hv
      have hin := groupStart_add_lt hn (hroom.length_lt hn) hv (Nat.le_refl _)
      rw [Array.getElem?_setIfInBounds, ← freePlace, if_pos rfl, if_pos (h.table_size ▸ hin),
        List.getElem?_append_right (by simp)]
      simp
    · rw [hold j (by omega), List.getElem?_append_left (by rw [List.length_map]; omega)]
  · rw [edgesTo_append_of_ne done hev] at hj ⊢
    exact hold j hj

theorem file (h : f.Holds sizes done) (hroom : Room sizes (done ++ [e])) :
    (f.file e).Holds sizes (done ++ [e]) := by
  by_cases he : e.target ≤ sizes.length
  · refine ⟨?_, ?_, ?_, fun v hv j hj => h.filed_file hroom he hv hj⟩
    · rw [h.file_eq he, Array.size_setIfInBounds, h.next_size]
    · intro v hv
      rw [h.file_eq he, Array.getElem?_setIfInBounds, h.next_size]
      by_cases hev : e.target = v
      · subst hev
        rw [if_pos rfl, if_pos (by omega), freePlace, freePlace, edgesTo_append_self, List.length_append,
          List.length_singleton, Nat.add_assoc]
      · rw [if_neg hev, h.next v hv, freePlace, freePlace, edgesTo_append_of_ne done hev]
    · rw [h.file_eq he, Array.size_setIfInBounds, h.table_size]
  · -- an edge that leaves the game has no place
    have hfile : f.file e = f := by
      rw [Filing.file, Array.getElem?_eq_none (by rw [h.next_size]; omega)]
    have hsame : ∀ v ≤ sizes.length, edgesTo (done ++ [e]) v = edgesTo done v :=
      fun v hv => edgesTo_append_of_ne done (by omega)
    rw [hfile]
    refine ⟨h.next_size, ?_, h.table_size, ?_⟩
    · intro v hv
      rw [h.next v hv, freePlace, freePlace, hsame v hv]
    · intro v hv
      rw [hsame v (Nat.le_of_lt hv)]
      exact h.filed v hv

theorem foldl (h : f.Holds sizes done) {rest : List PlacedEdge} (hroom : Room sizes (done ++ rest)) :
    (rest.foldl Filing.file f).Holds sizes (done ++ rest) := by
  induction rest generalizing f done with
  | nil => rwa [List.append_nil]
  | cons e rest ih =>
    rw [List.append_cons] at hroom ⊢
    exact ih (h.file hroom.of_append) hroom

end Holds
end Filing

namespace Game

variable {W : Type} (g : Game W)

/-! ## The table -/

private theorem getElem?_foldl_modify (es : List PlacedEdge) (counts : Array Nat) (v : Nat) :
    (es.foldl (fun counts e => counts.modify e.target (· + 1)) counts)[v]? =
      counts[v]?.map (· + (edgesTo es v).length) := by
  induction es generalizing counts with
  | nil => simp [edgesTo]
  | cons e es ih =>
    rw [List.foldl_cons, ih, Array.getElem?_modify]
    by_cases hev : e.target = v
    · simp [edgesTo, hev, Function.comp_def, Nat.add_assoc, Nat.add_comm 1]
    · simp [edgesTo, hev]

theorem getElem?_inDegrees {v : Nat} (hv : v < g.size) :
    g.inDegrees.toList[v]? = some (edgesTo g.placedEdges v).length := by
  rw [Array.getElem?_toList, inDegrees, getElem?_foldl_modify]
  simp [hv]

theorem length_inDegrees : g.inDegrees.toList.length = g.size := by
  have hsize : g.inDegrees.size = g.size :=
    List.foldlRecOn (motive := fun counts => Array.size counts = g.size) _ _ Array.size_replicate
      fun counts hcounts e _ => by rw [Array.size_modify, hcounts]
  rw [Array.length_toList, hsize]

theorem room_placedEdges : Filing.Room g.inDegrees.toList g.placedEdges := by
  intro v n hn
  have hv : v < g.size := g.length_inDegrees ▸ (List.getElem?_eq_some_iff.mp hn).1
  exact Nat.le_of_eq (Option.some.inj ((g.getElem?_inDegrees hv).symm.trans hn))

theorem holds_placedEdges : ∃ f : Filing, f.table = g.predecessors.table ∧
    f.Holds g.inDegrees.toList g.placedEdges :=
  ⟨_, rfl, (Filing.holds_blank _).foldl g.room_placedEdges⟩

theorem of_eq_extract (v : Nat) :
    g.predecessors.of v = (g.predecessors.table.extract (groupStart g.inDegrees.toList v)
      (groupStart g.inDegrees.toList (v + 1))).toList := rfl

/-- The edges filed under a node are those that lead to it, in the order in which they stand. -/
theorem of_predecessors {v : Nat} (hv : v < g.size) :
    g.predecessors.of v = (edgesTo g.placedEdges v).map PlacedEdge.place := by
  obtain ⟨f, hf, hholds⟩ := g.holds_placedEdges
  have hlen := g.length_inDegrees
  have hend := groupStart_succ (g.getElem?_inDegrees hv)
  have hsize : groupStart g.inDegrees.toList (v + 1) ≤ g.predecessors.table.size := by
    rw [← hf, hholds.table_size]
    exact groupStart_mono (by omega) (Nat.le_refl _)
  rw [of_eq_extract]
  refine List.ext_getElem? fun j => ?_
  rw [Array.getElem?_toList, Array.getElem?_extract]
  by_cases hj : j < (edgesTo g.placedEdges v).length
  · rw [if_pos (by omega), ← hf, hholds.filed v (by omega) j hj]
  · rw [if_neg (by omega), List.getElem?_eq_none (by rw [List.length_map]; omega)]

theorem of_predecessors_of_le {v : Nat} (hv : g.size ≤ v) : g.predecessors.of v = [] := by
  have hsize : g.predecessors.offsets.size = g.size + 1 := by
    refine (size_partialSums _).trans ?_
    rw [length_inDegrees]
  have hend : g.predecessors.offsets.getD (v + 1) 0 = 0 := by
    rw [Array.getD_eq_getD_getElem?, Array.getElem?_eq_none (by omega)]
    rfl
  rw [Predecessors.of, hend]
  simp

/-- The lists of the first nodes fill the table up to where that of the next one begins. -/
theorem flatMap_of_predecessors {m : Nat} (hm : m ≤ g.size) : (List.range m).flatMap g.predecessors.of =
    (g.predecessors.table.extract 0 (groupStart g.inDegrees.toList m)).toList := by
  induction m with
  | zero => simp [groupStart_zero]
  | succ m ih =>
    have hle : groupStart g.inDegrees.toList m ≤ groupStart g.inDegrees.toList (m + 1) :=
      groupStart_mono (Nat.le_succ m) (by rwa [length_inDegrees])
    rw [List.range_succ, List.flatMap_append, ih (by omega), List.flatMap_singleton, of_eq_extract,
      ← Array.toList_append, Array.extract_append_extract, Nat.zero_min, Nat.max_eq_right hle]

theorem table_predecessors : g.predecessors.table.toList = (List.range g.size).flatMap g.predecessors.of := by
  obtain ⟨f, hf, hholds⟩ := g.holds_placedEdges
  rw [g.flatMap_of_predecessors (Nat.le_refl _), ← g.length_inDegrees, ← hholds.table_size, hf, Array.extract_size]

/-! ## The lists -/

theorem mem_placedEdges (e : PlacedEdge) :
    e ∈ g.placedEdges ↔ g.succ? e.source e.position = some e.target := by
  simp only [placedEdges, placedEdgesOf, List.mem_flatMap, List.mem_range, List.mem_map,
    List.mem_zipIdx_iff_getElem?]
  constructor
  · rintro ⟨u, -, ⟨t, i⟩, ht, rfl⟩
    exact ht
  · intro h
    exact ⟨e.source, g.lt_size_of_mem_succs (g.mem_succs_of_succ? h), (e.target, e.position), h, rfl⟩

theorem mem_predecessors_of {u i v : Nat} (hv : v < g.size) :
    (u, i) ∈ g.predecessors.of v ↔ g.succ? u i = some v := by
  rw [of_predecessors g hv, List.mem_map]
  simp only [edgesTo, List.mem_filter, mem_placedEdges, decide_eq_true_eq, PlacedEdge.place, Prod.mk.injEq]
  constructor
  · rintro ⟨e, ⟨he, rfl⟩, rfl, rfl⟩
    exact he
  · intro h
    exact ⟨⟨u, i, v⟩, ⟨h, rfl⟩, rfl, rfl⟩

/-- Also of a node beyond the game every listed predecessor is one. -/
theorem succ?_of_mem_predecessors {g : Game W} {u i v : Nat} (h : (u, i) ∈ g.predecessors.of v) :
    g.succ? u i = some v := by
  by_cases hv : v < g.size
  · exact (g.mem_predecessors_of hv).mp h
  · rw [g.of_predecessors_of_le (Nat.le_of_not_lt hv)] at h
    cases h

theorem map_place_placedEdgesOf (u : Nat) :
    (g.placedEdgesOf u).map PlacedEdge.place = (List.range (g.degree u)).map (Prod.mk u) := by
  have hplace : (PlacedEdge.place ∘ fun x : Nat × Nat => (⟨u, x.2, x.1⟩ : PlacedEdge)) =
      Prod.mk u ∘ Prod.snd := rfl
  rw [placedEdgesOf, List.map_map, hplace, ← List.map_map, List.zipIdx_map_snd, length_succs,
    List.range_eq_range']

theorem pairwise_placedEdges : (g.placedEdges.map PlacedEdge.place).Pairwise Predecessors.Before := by
  rw [placedEdges, List.map_flatMap, List.pairwise_flatMap]
  simp only [map_place_placedEdgesOf]
  constructor
  · intro u _
    rw [List.pairwise_map]
    exact List.pairwise_lt_range.imp fun hij => .inr ⟨rfl, hij⟩
  · refine List.pairwise_lt_range.imp fun {u w} huw a ha b hb => ?_
    obtain ⟨_, -, rfl⟩ := List.mem_map.mp ha
    obtain ⟨_, -, rfl⟩ := List.mem_map.mp hb
    exact .inl huw

theorem pairwise_predecessors_of {v : Nat} (hv : v < g.size) :
    (g.predecessors.of v).Pairwise Predecessors.Before := by
  rw [of_predecessors g hv]
  exact g.pairwise_placedEdges.sublist (List.filter_sublist.map _)

theorem nodup_predecessors_of {v : Nat} (hv : v < g.size) : (g.predecessors.of v).Nodup := by
  refine (g.pairwise_predecessors_of hv).imp fun {a b} hab heq => ?_
  subst heq
  rcases hab with hlt | ⟨-, hlt⟩ <;> exact Nat.lt_irrefl _ hlt

/-- A game whose edges all stay inside it has predecessor lists. That of a node has the edges to it, each
once, in order, and there is nothing else in the table. -/
theorem exists_predecessors (hg : ∀ u, ∀ v ∈ g.succs u, v < g.size) :
    ∃ p, g.predecessors? = some p ∧ p.table.toList = (List.range g.size).flatMap p.of ∧
      ∀ v < g.size, (∀ u i, (u, i) ∈ p.of v ↔ g.succ? u i = some v) ∧ (p.of v).Nodup ∧
        (p.of v).Pairwise Predecessors.Before := by
  refine ⟨g.predecessors, if_pos (g.isClosed_iff.mpr hg), g.table_predecessors, fun v hv => ⟨?_, ?_, ?_⟩⟩
  · exact fun u i => g.mem_predecessors_of hv
  · exact g.nodup_predecessors_of hv
  · exact g.pairwise_predecessors_of hv

/-- Parallel edges, loops, and a node without predecessors. -/
def braid : Game Rat :=
  ⟨#[⟨.even, 0, [⟨1, 1⟩, ⟨2, 1⟩, ⟨1, 1⟩]⟩, ⟨.odd, 1, [⟨1, 1⟩, ⟨2, 1⟩]⟩,
    ⟨.stochastic, 2, [⟨1, 1 / 2⟩, ⟨2, 1 / 2⟩]⟩]⟩

theorem exists_predecessors_braid : (∀ u, ∀ v ∈ braid.succs u, v < braid.size) ∧
    (∃ p, braid.predecessors? = some p ∧ p.table.toList = (List.range braid.size).flatMap p.of ∧
      ∀ v < braid.size, (∀ u i, (u, i) ∈ p.of v ↔ braid.succ? u i = some v) ∧ (p.of v).Nodup ∧
        (p.of v).Pairwise Predecessors.Before) ∧
    braid.predecessors.of 0 = [] ∧ braid.predecessors.of 1 = [(0, 0), (0, 2), (1, 0), (2, 0)] := by
  have hclosed : ∀ u, ∀ v ∈ braid.succs u, v < braid.size := braid.isClosed_iff.mp (by decide +kernel)
  exact ⟨hclosed, braid.exists_predecessors hclosed, by decide +kernel, by decide +kernel⟩

end Game

end OmegaGames
