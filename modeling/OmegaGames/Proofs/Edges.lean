import OmegaGames.Game.Basic
import Mathlib.Data.List.Nodup

/-!
# Edges of a game

The successors of a node are its edges by position. For a valid game no edge leaves the game and no node
lacks one.
-/
namespace OmegaGames
namespace Game

variable {W : Type} (g : Game W)

theorem mem_succs_iff (u v : Nat) : v ∈ g.succs u ↔ ∃ i, g.succ? u i = some v := by
  simp [succ?, List.mem_iff_getElem?]

theorem mem_succs_of_succ? {u i v : Nat} (h : g.succ? u i = some v) : v ∈ g.succs u :=
  List.mem_of_getElem? h

@[simp] theorem length_succs (u : Nat) : (g.succs u).length = g.degree u := by simp [succs, degree]

theorem lt_degree_of_succ? {u i v : Nat} (h : g.succ? u i = some v) : i < g.degree u := by
  rw [← length_succs]
  exact (List.getElem?_eq_some_iff.mp h).1

theorem exists_succ?_of_lt_degree {u i : Nat} (h : i < g.degree u) : ∃ v, g.succ? u i = some v := by
  rw [← length_succs] at h
  exact ⟨_, List.getElem?_eq_getElem h⟩

theorem lt_size_of_mem_succs {u v : Nat} (h : v ∈ g.succs u) : u < g.size := by
  by_contra hu
  have hn : g.nodes[u]? = none := Array.getElem?_eq_none_iff.mpr (Nat.le_of_not_lt hu)
  simp [succs, edges, hn] at h

theorem lt_size_of_lt_degree {u i : Nat} (h : i < g.degree u) : u < g.size := by
  obtain ⟨v, hv⟩ := g.exists_succ?_of_lt_degree h
  exact g.lt_size_of_mem_succs (g.mem_succs_of_succ? hv)

theorem map_priority_nodes :
    g.nodes.toList.map Node.priority = (List.range g.size).map g.priority := by
  refine List.ext_getElem (by simp [size]) fun v hv _ => ?_
  have hlt : v < g.nodes.size := by simpa using hv
  simp [priority, hlt]

theorem of_node {g : Game W} {v : Nat} {n : Node W} (h : g.nodes[v]? = some n) :
    v < g.size ∧ g.owner v = n.owner ∧ g.priority v = n.priority ∧
      g.succs v = n.edges.map Edge.target := by
  refine ⟨(Array.getElem?_eq_some_iff.mp h).1, ?_, ?_, ?_⟩
  · simp [owner, h]
  · simp [priority, h]
  · simp [succs, edges, h]

theorem exists_node {g : Game W} {v : Nat} (h : v < g.size) : ∃ n, g.nodes[v]? = some n :=
  ⟨_, Array.getElem?_eq_getElem h⟩

theorem isClosed_iff : g.isClosed = true ↔ ∀ u, ∀ v ∈ g.succs u, v < g.size := by
  simp only [isClosed, List.all_eq_true, decide_eq_true_eq]
  constructor
  · intro h u v hv
    cases hn : g.nodes[u]? with
    | none => simp [succs, edges, hn] at hv
    | some n =>
      simp only [succs, edges, hn, List.mem_map] at hv
      obtain ⟨e, he, rfl⟩ := hv
      exact h n (Array.mem_toList_iff.mpr (Array.mem_of_getElem? hn)) e he
  · intro h n hn e he
    obtain ⟨u, hu⟩ := List.mem_iff_getElem?.mp hn
    apply h u
    rw [Array.getElem?_toList] at hu
    simp only [succs, edges, hu, List.mem_map]
    exact ⟨e, he, rfl⟩

/-! ## Valid games -/

section Valid

variable {g} [Scalar W]

private theorem edgeError?_eq_none_iff (v : Nat) (e : Edge W) (i : Nat) :
    g.edgeError? v e i = none ↔ e.target < g.size ∧
      (g.owner v = .stochastic → Scalar.isFinite e.weight = true ∧ Scalar.le e.weight Scalar.zero = false) := by
  by_cases hlt : e.target < g.size
  · have hle : ¬ g.size ≤ e.target := by omega
    by_cases hs : g.owner v = .stochastic
    · cases hf : Scalar.isFinite e.weight <;> cases hz : Scalar.le e.weight Scalar.zero <;>
        simp [edgeError?, hlt, hle, hs, hf, hz]
    · simp [edgeError?, hlt, hle, hs]
  · have hle : g.size ≤ e.target := by omega
    simp [edgeError?, hlt, hle]

/-- A valid game has finite priorities, no dead ends, no edge that leaves it, and positive weights on the
edges of stochastic nodes. -/
theorem valid_iff : g.Valid ↔ ∀ v < g.size, g.priority v ≠ infinitePriority ∧ g.edges v ≠ [] ∧
    ∀ e ∈ g.edges v, e.target < g.size ∧
      (g.owner v = .stochastic → Scalar.isFinite e.weight = true ∧ Scalar.le e.weight Scalar.zero = false) := by
  rw [Valid, firstError?, List.findSome?_eq_none_iff]
  simp only [List.mem_range]
  refine forall₂_congr fun v _ => ?_
  simp only [nodeError?]
  split
  next hp => simp [hp]
  next hp =>
    split
    next he => simp_all
    next he =>
      rw [List.findSome?_eq_none_iff]
      constructor
      · intro h
        refine ⟨hp, by simpa using he, fun e hmem => ?_⟩
        obtain ⟨i, hi⟩ := List.mem_iff_getElem?.mp hmem
        exact (edgeError?_eq_none_iff v e i).mp (h (e, i) (List.mem_zipIdx_iff_getElem?.mpr hi))
      · rintro ⟨-, -, h⟩ ⟨e, i⟩ hei
        exact (edgeError?_eq_none_iff v e i).mpr
          (h e (List.mem_of_getElem? (List.mem_zipIdx_iff_getElem?.mp hei)))

theorem Valid.priority_ne {v : Nat} (h : g.Valid) (hv : v < g.size) :
    g.priority v ≠ infinitePriority := (valid_iff.mp h v hv).1

theorem Valid.succs_ne_nil {v : Nat} (h : g.Valid) (hv : v < g.size) : g.succs v ≠ [] := by
  simpa [succs] using (valid_iff.mp h v hv).2.1

theorem Valid.succ_lt {u v : Nat} (h : g.Valid) (hv : v ∈ g.succs u) : v < g.size := by
  have hu := g.lt_size_of_mem_succs hv
  obtain ⟨e, he, rfl⟩ := List.mem_map.mp hv
  exact ((valid_iff.mp h u hu).2.2 e he).1

theorem Valid.le_maxPriority_iff (h : g.Valid) {k : Nat} (hk : 0 < k) :
    k ≤ g.maxPriority?.getD 0 ↔ ∃ v < g.size, k ≤ g.priority v := by
  have hall : g.maxPriority? = ((List.range g.size).map g.priority).max? := by
    rw [maxPriority?, map_priority_nodes, List.filter_eq_self.mpr]
    intro p hp
    obtain ⟨v, hv, rfl⟩ := List.mem_map.mp hp
    simpa using h.priority_ne (List.mem_range.mp hv)
  rw [hall]
  cases hmax : ((List.range g.size).map g.priority).max? with
  | none =>
    have hnil : g.size = 0 := by simpa using List.max?_eq_none_iff.mp hmax
    constructor
    · intro hle
      simp only [Option.getD_none] at hle
      omega
    · rintro ⟨v, hv, -⟩
      omega
  | some m =>
    obtain ⟨hm, hle⟩ := List.max?_eq_some_iff.mp hmax
    obtain ⟨v, hv, rfl⟩ := List.mem_map.mp hm
    constructor
    · exact fun hkm => ⟨v, List.mem_range.mp hv, hkm⟩
    · rintro ⟨w, hw, hkw⟩
      exact Nat.le_trans hkw (hle _ (List.mem_map_of_mem (List.mem_range.mpr hw)))

theorem Valid.isClosed (h : g.Valid) : g.isClosed = true :=
  g.isClosed_iff.mpr fun _ _ hv => h.succ_lt hv

end Valid

end Game
end OmegaGames
