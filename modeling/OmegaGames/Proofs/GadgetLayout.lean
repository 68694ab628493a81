import OmegaGames.Qualitative.Gadget
import OmegaGames.Proofs.Edges
import Mathlib.Algebra.Order.BigOperators.Group.Finset

/-!
# The layout of the gadget game

The nodes that stand for a node of the game follow each other, from its image on. For a stochastic node
of priority `p` these are the top, the second layer and the third layer. Proofs about the gadget game
use the four views below and not the numbers of the nodes.

The images are computed from a size formula before any node exists. The game is built node by node, each new node
getting the next free number, and these numbers are the same. `Replaces` collects the whole layout. The sum of
the sizes is the number of nodes in the end, and a game for whose gadgets there is no room is refused.
-/
namespace OmegaGames

variable {W : Type}

namespace Gadget

/-- The first of the nodes that stand for a node. -/
def image (g : Game W) (v : Nat) : Nat := (mapping g).getD v 0

def second (g : Game W) (v i : Nat) : Nat := image g v + (1 + i)

def third (g : Game W) (v j : Nat) : Nat := image g v + (1 + secondCount (g.priority v) + j)

/-! ## Blocks -/

private theorem nodeCount_chance {n : Node W} (hs : n.owner = .stochastic) :
    nodeCount n = 1 + secondCount n.priority + (n.priority + 1) := by
  simp [nodeCount, hs]

private theorem nodeCount_player {n : Node W} (ho : n.owner ≠ .stochastic) : nodeCount n = 1 := by
  cases hc : n.owner with
  | even => simp [nodeCount, hc]
  | odd => simp [nodeCount, hc]
  | stochastic => exact absurd hc ho

private def offset : List (Node W) → Nat
  | [] => 0
  | n :: ns => nodeCount n + offset ns

private theorem mapping_foldl (ns : List (Node W)) (m : Array Nat) (next : Nat) :
    (ns.foldl (fun (m, next) n => (m.push next, next + nodeCount n)) (m, next)).1.toList =
      m.toList ++ (List.range ns.length).map fun i => next + offset (ns.take i) := by
  induction ns generalizing m next with
  | nil => simp
  | cons n ns ih =>
    rw [List.foldl_cons, ih, List.length_cons, List.range_succ_eq_map]
    simp [offset, Nat.add_assoc, Function.comp_def]

private theorem totalCount_foldl (ns : List (Node W)) (m : Array Nat) (next : Nat) :
    (ns.foldl (fun (m, next) n => (m.push next, next + nodeCount n)) (m, next)).2 = next + offset ns := by
  induction ns generalizing m next with
  | nil => rfl
  | cons n ns ih => rw [List.foldl_cons, ih, offset, Nat.add_assoc]

theorem size_mapping (g : Game W) : (mapping g).size = g.size := by
  have hlength := congrArg List.length (mapping_foldl g.nodes.toList #[] 0)
  simpa [mapping, layout, Game.size] using hlength

private theorem image_eq {g : Game W} {v : Nat} (hv : v < g.size) :
    image g v = offset (g.nodes.toList.take v) := by
  have hmap := mapping_foldl g.nodes.toList #[] 0
  have hget : (mapping g)[v]? = some (offset (g.nodes.toList.take v)) := by
    rw [← Array.getElem?_toList, mapping, layout, hmap]
    have hlen : v < g.nodes.size := hv
    simp [hlen]
  rw [image, Array.getD_eq_getD_getElem?, hget, Option.getD_some]

section Blocks

variable {F : Node W × Nat → List (Node W)} (hF : ∀ n i, (F (n, i)).length = nodeCount n)

include hF

private theorem getElem?_blocks (ns : List (Node W)) (s v k : Nat) {n : Node W} (hn : ns[v]? = some n)
    (hk : k < nodeCount n) :
    ((ns.zipIdx s).flatMap F)[offset (ns.take v) + k]? = (F (n, s + v))[k]? := by
  induction ns generalizing s v with
  | nil => simp at hn
  | cons a ns ih =>
    rw [List.zipIdx_cons, List.flatMap_cons]
    cases v with
    | zero =>
      simp only [List.getElem?_cons_zero, Option.some.injEq] at hn
      subst hn
      rw [List.getElem?_append_left (by simpa [offset, hF] using hk)]
      simp [offset]
    | succ v =>
      have hoff : offset ((a :: ns).take (v + 1)) + k = (F (a, s)).length + (offset (ns.take v) + k) := by
        simp [offset, hF, Nat.add_assoc]
      rw [hoff, List.getElem?_append_right (Nat.le_add_right _ _), Nat.add_sub_cancel_left,
        ih (s + 1) v (by simpa using hn)]
      simp only [Nat.add_assoc, Nat.add_comm 1 v]

private theorem exists_block (ns : List (Node W)) (s i : Nat)
    (hi : i < ((ns.zipIdx s).flatMap F).length) :
    ∃ v n k, ns[v]? = some n ∧ k < nodeCount n ∧ i = offset (ns.take v) + k := by
  induction ns generalizing s i with
  | nil => simp at hi
  | cons a ns ih =>
    rw [List.zipIdx_cons, List.flatMap_cons, List.length_append, hF] at hi
    by_cases hlt : i < nodeCount a
    · exact ⟨0, a, i, rfl, hlt, by simp [offset]⟩
    · obtain ⟨v, n, k, hn, hk, heq⟩ := ih (s + 1) (i - nodeCount a) (by omega)
      refine ⟨v + 1, n, k, by simpa using hn, hk, ?_⟩
      rw [List.take_succ_cons, offset]
      omega

end Blocks

/-! ## The nodes of the gadget game -/

variable [Scalar W] {g : Game W} {v : Nat}

private theorem length_expand (m : Array Nat) (base : Nat) (n : Node W) :
    (expand m base n).length = nodeCount n := by
  simp only [expand, nodeCount]
  cases n.owner with
  | even => rfl
  | odd => rfl
  | stochastic =>
    simp
    omega

theorem size_append (m : Array Nat) (nodes : Array (Node W)) (n : Node W) :
    (append m nodes n).size = nodes.size + nodeCount n := by
  simp [append, length_expand]

private theorem foldl_append_eq (m : Array Nat) (ns : List (Node W)) (s : Nat) (nodes : Array (Node W))
    (hm : ∀ i < ns.length, m.getD (s + i) 0 = nodes.size + offset (ns.take i)) :
    (ns.foldl (append m) nodes).toList =
      nodes.toList ++ (ns.zipIdx s).flatMap fun x => expand m (m.getD x.2 0) x.1 := by
  induction ns generalizing s nodes with
  | nil => simp
  | cons n ns ih =>
    have hbase : m.getD s 0 = nodes.size := by simpa [offset] using hm 0 (Nat.succ_pos _)
    rw [List.foldl_cons, ih (s + 1)]
    · rw [List.zipIdx_cons, List.flatMap_cons, hbase]
      simp [append]
    · intro i hi
      have hnext := hm (i + 1) (Nat.succ_lt_succ hi)
      rw [List.take_succ_cons, offset] at hnext
      rw [size_append, Nat.add_assoc s 1 i, Nat.add_comm 1 i, hnext, Nat.add_assoc]

private theorem nodes_transform (g : Game W) : (transform g).nodes.toList =
    g.nodes.toList.zipIdx.flatMap fun x => expand (mapping g) ((mapping g).getD x.2 0) x.1 := by
  have hlength : g.nodes.toList.take g.size = g.nodes.toList :=
    List.take_of_length_le (by simp [Game.size])
  rw [transform, built, hlength, foldl_append_eq (mapping g) g.nodes.toList 0 #[]]
  · rfl
  · intro v hv
    have hlt : v < g.size := by simpa [Game.size] using hv
    simpa [image] using image_eq hlt

private theorem node_transform {n : Node W} {k : Nat} (hn : g.nodes[v]? = some n)
    (hk : k < nodeCount n) :
    (transform g).nodes[image g v + k]? = (expand (mapping g) (image g v) n)[k]? := by
  have hn' : g.nodes.toList[v]? = some n := by simpa using hn
  have hblock := getElem?_blocks (F := fun x => expand (mapping g) ((mapping g).getD x.2 0) x.1)
    (fun n i => length_expand _ _ n) g.nodes.toList 0 v k hn' hk
  rw [image_eq (Game.of_node hn).1]
  simp only [Nat.zero_add] at hblock
  rw [← Array.getElem?_toList, nodes_transform, hblock, ← image_eq (Game.of_node hn).1, image]

private theorem exists_place {i : Nat} (hi : i < (transform g).size) :
    ∃ v n k, g.nodes[v]? = some n ∧ k < nodeCount n ∧ i = image g v + k := by
  have hi' : i < (g.nodes.toList.zipIdx.flatMap fun x =>
      expand (mapping g) ((mapping g).getD x.2 0) x.1).length := by
    rw [← nodes_transform]
    exact hi
  obtain ⟨v, n, k, hn, hk, heq⟩ := exists_block (fun n i => length_expand _ _ n) _ _ _ hi'
  have hn' : g.nodes[v]? = some n := by simpa using hn
  exact ⟨v, n, k, hn', hk, by rw [image_eq (Game.of_node hn').1]; exact heq⟩

private theorem targets_onward (n : Node W) :
    (n.edges.map fun e => link (W := W) ((mapping g).getD e.target 0)).map Edge.target =
      (n.edges.map Edge.target).map (image g) := by
  simp [link, image, Function.comp_def]

theorem view_player (hv : v < g.size) (ho : g.owner v ≠ .stochastic) :
    image g v < (transform g).size ∧ (transform g).owner (image g v) = g.owner v ∧
      (transform g).priority (image g v) = g.priority v ∧
      (transform g).succs (image g v) = (g.succs v).map (image g) := by
  obtain ⟨n, hn⟩ := Game.exists_node hv
  obtain ⟨-, hown, hprio, hsucc⟩ := Game.of_node hn
  have hexp : expand (mapping g) (image g v) n =
      [⟨n.owner, n.priority, n.edges.map fun e => link ((mapping g).getD e.target 0)⟩] := by
    rw [hown] at ho
    cases hc : n.owner with
    | even => simp [expand, hc]
    | odd => simp [expand, hc]
    | stochastic => exact absurd hc ho
  have hk : 0 < nodeCount n := by simp [← length_expand (mapping g) (image g v), hexp]
  have hat := node_transform hn hk
  rw [hexp] at hat
  obtain ⟨hlt, howner, hpriority, hsuccs⟩ := Game.of_node hat
  rw [hown, hprio, hsucc]
  exact ⟨hlt, howner, hpriority, hsuccs.trans (targets_onward n)⟩

private theorem expand_chance {n : Node W} (hs : n.owner = .stochastic) (base : Nat) :
    expand (mapping g) base n =
      (⟨.odd, n.priority, (List.range (secondCount n.priority)).map fun i => link (base + 1 + i)⟩ ::
        (List.range (secondCount n.priority)).map fun i =>
          ⟨.even, n.priority, secondEdges n.priority (base + 1 + secondCount n.priority) (2 * i)⟩) ++
        (List.range (n.priority + 1)).map fun j =>
          ⟨(Player.ofPriority j).opponent, j, n.edges.map fun e => link ((mapping g).getD e.target 0)⟩ := by
  simp [expand, hs]

theorem view_chance (hv : v < g.size) (hs : g.owner v = .stochastic) :
    image g v < (transform g).size ∧ (transform g).owner (image g v) = .odd ∧
      (transform g).priority (image g v) = g.priority v ∧
      (transform g).succs (image g v) = (List.range (secondCount (g.priority v))).map (second g v) := by
  obtain ⟨n, hn⟩ := Game.exists_node hv
  obtain ⟨-, hown, hprio, -⟩ := Game.of_node hn
  rw [hown] at hs
  have hk : 0 < nodeCount n := by
    rw [nodeCount_chance hs]
    omega
  have hat := node_transform hn hk
  rw [expand_chance hs, List.cons_append, List.getElem?_cons_zero] at hat
  obtain ⟨hlt, howner, hpriority, hsuccs⟩ := Game.of_node hat
  rw [hprio]
  refine ⟨hlt, howner, hpriority, hsuccs.trans ?_⟩
  simp [link, second, Nat.add_assoc, Function.comp_def]

theorem view_second (hv : v < g.size) (hs : g.owner v = .stochastic) {i : Nat}
    (hi : i < secondCount (g.priority v)) :
    second g v i < (transform g).size ∧ (transform g).owner (second g v i) = .even ∧
      (transform g).priority (second g v i) = g.priority v ∧
      (transform g).succs (second g v i) =
        (if 0 < i then [third g v (2 * i - 1)] else []) ++
          (if 2 * i ≤ g.priority v then [third g v (2 * i)] else []) := by
  obtain ⟨n, hn⟩ := Game.exists_node hv
  obtain ⟨-, hown, hprio, -⟩ := Game.of_node hn
  rw [hown] at hs
  rw [hprio] at hi ⊢
  have hk : 1 + i < nodeCount n := by
    rw [nodeCount_chance hs]
    omega
  have hat := node_transform hn hk
  rw [expand_chance hs, List.getElem?_append_left (by simp; omega), Nat.add_comm 1 i,
    List.getElem?_cons_succ, List.getElem?_map, List.getElem?_range hi, Option.map_some] at hat
  rw [second, Nat.add_comm 1 i]
  obtain ⟨hlt, howner, hpriority, hsuccs⟩ := Game.of_node hat
  refine ⟨hlt, howner, hpriority, hsuccs.trans ?_⟩
  by_cases h0 : 0 < i <;> by_cases hp : 2 * i ≤ n.priority <;>
    simp [secondEdges, link, third, hprio, h0, hp, Nat.add_assoc]

theorem view_third (hv : v < g.size) (hs : g.owner v = .stochastic) {j : Nat} (hj : j ≤ g.priority v) :
    third g v j < (transform g).size ∧
      (transform g).owner (third g v j) = (Player.ofPriority j).opponent ∧
      (transform g).priority (third g v j) = j ∧
      (transform g).succs (third g v j) = (g.succs v).map (image g) := by
  obtain ⟨n, hn⟩ := Game.exists_node hv
  obtain ⟨-, hown, hprio, hsucc⟩ := Game.of_node hn
  rw [hown] at hs
  rw [hprio] at hj
  have hk : 1 + secondCount n.priority + j < nodeCount n := by
    rw [nodeCount_chance hs]
    omega
  have hat := node_transform hn hk
  have hlen : (1 + secondCount n.priority + j) - (1 + secondCount n.priority) = j := by omega
  rw [expand_chance hs, List.getElem?_append_right (by simp; omega)] at hat
  simp only [List.length_cons, List.length_map, List.length_range, Nat.add_comm _ 1, hlen,
    List.getElem?_map] at hat
  rw [List.getElem?_range (by omega), Option.map_some] at hat
  rw [third, hprio, hsucc]
  obtain ⟨hlt, howner, hpriority, hsuccs⟩ := Game.of_node hat
  exact ⟨hlt, howner, hpriority, hsuccs.trans (targets_onward n)⟩

/-- Every node of the gadget game stands for a node of the game. -/
theorem cases_transform {i : Nat} (hi : i < (transform g).size) :
    ∃ v < g.size, (g.owner v ≠ .stochastic ∧ i = image g v) ∨
      g.owner v = .stochastic ∧ (i = image g v ∨
        (∃ k < secondCount (g.priority v), i = second g v k) ∨ ∃ j ≤ g.priority v, i = third g v j) := by
  obtain ⟨v, n, k, hn, hk, rfl⟩ := exists_place hi
  obtain ⟨hv, hown, hprio, -⟩ := Game.of_node hn
  refine ⟨v, hv, ?_⟩
  by_cases hs : g.owner v = .stochastic
  · rw [hown] at hs
    rw [nodeCount, hs] at hk
    dsimp only at hk
    refine Or.inr ⟨hown.trans hs, ?_⟩
    rw [hprio]
    by_cases h0 : k = 0
    · exact Or.inl (by rw [h0, Nat.add_zero])
    · by_cases h1 : k - 1 < secondCount n.priority
      · exact Or.inr (Or.inl ⟨k - 1, h1, by rw [second]; omega⟩)
      · exact Or.inr (Or.inr ⟨k - 1 - secondCount n.priority, by omega, by rw [third, hprio]; omega⟩)
  · have hone : nodeCount n = 1 := nodeCount_player (hown ▸ hs)
    exact Or.inl ⟨hs, by rw [show k = 0 by omega, Nat.add_zero]⟩

/-! ## What the gadget game keeps -/

theorem image_lt (hv : v < g.size) : image g v < (transform g).size := by
  by_cases hs : g.owner v = .stochastic
  · exact (view_chance hv hs).1
  · exact (view_player hv hs).1

theorem priority_image (hv : v < g.size) : (transform g).priority (image g v) = g.priority v := by
  by_cases hs : g.owner v = .stochastic
  · exact (view_chance hv hs).2.2.1
  · exact (view_player hv hs).2.2.1

theorem owner_transform {i : Nat} (hi : i < (transform g).size) :
    (transform g).owner i ≠ .stochastic := by
  obtain ⟨v, hv, ⟨ho, rfl⟩ | ⟨hs, rfl | ⟨k, hk, rfl⟩ | ⟨j, hj, rfl⟩⟩⟩ := cases_transform hi
  · rw [(view_player hv ho).2.1]
    exact ho
  · simp [(view_chance hv hs).2.1]
  · simp [(view_second hv hs hk).2.1]
  · rw [(view_third hv hs hj).2.1]
    simp only [Player.ofPriority]
    split <;> simp [Player.opponent]

theorem priority_transform_le {i : Nat} (hi : i < (transform g).size) :
    ∃ v < g.size, (transform g).priority i ≤ g.priority v := by
  obtain ⟨v, hv, ⟨ho, rfl⟩ | ⟨hs, rfl | ⟨k, hk, rfl⟩ | ⟨j, hj, rfl⟩⟩⟩ := cases_transform hi
  · exact ⟨v, hv, Nat.le_of_eq (view_player hv ho).2.2.1⟩
  · exact ⟨v, hv, Nat.le_of_eq (view_chance hv hs).2.2.1⟩
  · exact ⟨v, hv, Nat.le_of_eq (view_second hv hs hk).2.2.1⟩
  · refine ⟨v, hv, ?_⟩
    rw [(view_third hv hs hj).2.2.1]
    exact hj

private theorem succs_transform (hg : g.Valid) {i : Nat} (hi : i < (transform g).size) :
    (transform g).succs i ≠ [] ∧ ∀ t ∈ (transform g).succs i, t < (transform g).size := by
  have honward : ∀ v < g.size, (g.succs v).map (image g) ≠ [] ∧
      ∀ t ∈ (g.succs v).map (image g), t < (transform g).size := by
    intro v hv
    refine ⟨by simpa using hg.succs_ne_nil hv, fun t ht => ?_⟩
    obtain ⟨w, hw, rfl⟩ := List.mem_map.mp ht
    exact image_lt (hg.succ_lt hw)
  obtain ⟨v, hv, ⟨ho, rfl⟩ | ⟨hs, rfl | ⟨k, hk, rfl⟩ | ⟨j, hj, rfl⟩⟩⟩ := cases_transform hi
  · rw [(view_player hv ho).2.2.2]
    exact honward v hv
  · rw [(view_chance hv hs).2.2.2]
    refine ⟨by simp [secondCount], fun t ht => ?_⟩
    obtain ⟨k, hk, rfl⟩ := List.mem_map.mp ht
    exact (view_second hv hs (List.mem_range.mp hk)).1
  · rw [(view_second hv hs hk).2.2.2]
    have hlast : 2 * k - 1 ≤ g.priority v := by
      simp only [secondCount] at hk
      omega
    constructor
    · by_cases h0 : 0 < k
      · simp [h0]
      · simp [show k = 0 by omega]
    · intro t ht
      rcases List.mem_append.mp ht with ht | ht
      · split at ht
        · rw [List.mem_singleton.mp ht]
          exact (view_third hv hs hlast).1
        · simp at ht
      · split at ht
        next hle =>
          rw [List.mem_singleton.mp ht]
          exact (view_third hv hs hle).1
        next => simp at ht
  · rw [(view_third hv hs hj).2.2.2]
    exact honward v hv

theorem succ_lt_transform (hg : g.Valid) {i t : Nat} (ht : t ∈ (transform g).succs i) :
    t < (transform g).size :=
  (succs_transform hg ((transform g).lt_size_of_mem_succs ht)).2 t ht

theorem valid_transform (hg : g.Valid) (hp : ∀ v < g.size, g.priority v < infinitePriority) :
    (transform g).Valid := by
  rw [Game.valid_iff]
  intro i hi
  obtain ⟨hne, hlt⟩ := succs_transform hg hi
  obtain ⟨v, hv, hle⟩ := priority_transform_le hi
  have hprio := hp v hv
  refine ⟨by omega, fun he => hne (by simp [Game.succs, he]), fun e he => ?_⟩
  exact ⟨hlt _ (List.mem_map_of_mem he), fun hs => absurd hs (owner_transform hi)⟩

/-! ## The numbers that are handed out -/

omit [Scalar W] in
private theorem offset_take_succ {ns : List (Node W)} {n : Node W} (hn : ns[v]? = some n) :
    offset (ns.take (v + 1)) = offset (ns.take v) + nodeCount n := by
  induction ns generalizing v with
  | nil => simp at hn
  | cons a ns ih =>
    cases v with
    | zero =>
      obtain rfl : a = n := by simpa using hn
      simp [offset]
    | succ v =>
      rw [List.take_succ_cons, List.take_succ_cons, offset, offset, ih (by simpa using hn), Nat.add_assoc]

private theorem size_foldl_append (m : Array Nat) (ns : List (Node W)) (nodes : Array (Node W)) :
    (ns.foldl (append m) nodes).size = nodes.size + offset ns := by
  induction ns generalizing nodes with
  | nil => rfl
  | cons n ns ih =>
    rw [List.foldl_cons, ih, size_append, offset, Nat.add_assoc]

/-- The numbers of the mapping are those that are handed out. -/
theorem size_built (hv : v < g.size) : (built g v).size = image g v := by
  rw [built, size_foldl_append, image_eq hv]
  simp

theorem size_built_succ {n : Node W} (hn : g.nodes[v]? = some n) :
    (built g (v + 1)).size = image g v + nodeCount n := by
  rw [built, size_foldl_append, offset_take_succ (by simpa using hn), image_eq (Game.of_node hn).1]
  simp

/-- As many nodes are built as were counted beforehand. -/
theorem size_transform (g : Game W) : (transform g).size = totalCount g := by
  have hlength : g.nodes.toList.take g.size = g.nodes.toList :=
    List.take_of_length_le (by simp [Game.size])
  rw [Game.size, transform, built, hlength, size_foldl_append, totalCount, layout, totalCount_foldl]
  rfl

def blockSize (g : Game W) (v : Nat) : Nat :=
  if g.owner v = .stochastic then g.priority v + (g.priority v + 1) / 2 + 3 else 1

omit [Scalar W] in
private theorem nodeCount_eq_blockSize {n : Node W} (hn : g.nodes[v]? = some n) : nodeCount n = blockSize g v := by
  obtain ⟨-, hown, hprio, -⟩ := Game.of_node hn
  rw [blockSize, hown, hprio]
  split
  · rename_i hs
    rw [nodeCount_chance hs, secondCount]
    omega
  · rename_i hs
    exact nodeCount_player hs

theorem totalCount_eq_sum (g : Game W) : totalCount g = ∑ v ∈ Finset.range g.size, blockSize g v := by
  have hbuilt : ∀ k ≤ g.size, (built g k).size = ∑ v ∈ Finset.range k, blockSize g v := by
    intro k hk
    induction k with
    | zero => rfl
    | succ v ih =>
      obtain ⟨n, hn⟩ := Game.exists_node hk
      rw [Finset.sum_range_succ, ← ih (Nat.le_of_lt hk), size_built hk, size_built_succ hn,
        nodeCount_eq_blockSize hn]
  rw [← size_transform, ← hbuilt g.size le_rfl, Game.size, transform]

theorem image_lt_image {u : Nat} (huv : u < v) (hv : v < g.size) : image g u < image g v := by
  induction v with
  | zero => exact absurd huv (Nat.not_lt_zero u)
  | succ v ih =>
    have hlt : v < g.size := Nat.lt_of_succ_lt hv
    obtain ⟨n, hn⟩ := Game.exists_node hlt
    have hnext : image g (v + 1) = image g v + nodeCount n := (size_built hv).symm.trans (size_built_succ hn)
    have hpos : 0 < nodeCount n := by
      rw [nodeCount]
      split <;> omega
    rcases Nat.lt_succ_iff_lt_or_eq.mp huv with huv | rfl
    · have := ih huv hlt
      omega
    · omega

/-! ## The layout as a whole -/

/-- The nodes that stand for a stochastic node of priority `p`: the top, with number `image g v`, the second layer
with the next `(p + 1) / 2 + 1` numbers, of which the node at position `i` is the one for `2 * i`, and the third
layer with the `p + 1` numbers after these. -/
structure Layers (g t : Game W) (v : Nat) : Prop where
  owner_top : t.owner (image g v) = .odd
  priority_top : t.priority (image g v) = g.priority v
  succs_top : t.succs (image g v) = (List.range ((g.priority v + 1) / 2 + 1)).map (second g v)
  owner_second : ∀ i < (g.priority v + 1) / 2 + 1, t.owner (second g v i) = .even
  priority_second : ∀ i < (g.priority v + 1) / 2 + 1, t.priority (second g v i) = g.priority v
  succs_second : ∀ i < (g.priority v + 1) / 2 + 1, (t.succs (second g v i)).Nodup ∧
    ∀ w, w ∈ t.succs (second g v i) ↔ ∃ j ≤ g.priority v, (j + 1 = 2 * i ∨ j = 2 * i) ∧ w = third g v j
  owner_third : ∀ j ≤ g.priority v, t.owner (third g v j) = if j % 2 = 0 then .odd else .even
  priority_third : ∀ j ≤ g.priority v, t.priority (third g v j) = j
  succs_third : ∀ j ≤ g.priority v, t.succs (third g v j) = (g.succs v).map (image g)
  size_built : (built g (v + 1)).size = image g v + (1 + ((g.priority v + 1) / 2 + 1) + (g.priority v + 1))

/-- A valid game `t` of two players in which the nodes of `g` are replaced one after the other: nodes of the
players by themselves, and stochastic nodes by their layers. -/
structure Replaces (g t : Game W) : Prop where
  valid : t.Valid
  owner_ne : ∀ i < t.size, t.owner i ≠ .stochastic
  size_mapping : (mapping g).size = g.size
  handed_out : ∀ v < g.size, (built g v).size = image g v
  nodes_eq : t.nodes = built g g.size
  size_eq : t.size = ∑ v ∈ Finset.range g.size, blockSize g v
  increasing : ∀ u v, u < v → v < g.size → image g u < image g v
  kept : ∀ v < g.size, g.owner v ≠ .stochastic → t.owner (image g v) = g.owner v ∧
    t.priority (image g v) = g.priority v ∧ t.succs (image g v) = (g.succs v).map (image g) ∧
    (built g (v + 1)).size = image g v + 1
  layers : ∀ v < g.size, g.owner v = .stochastic → Layers g t v

theorem layers_transform (hv : v < g.size) (hs : g.owner v = .stochastic) : Layers g (transform g) v := by
  obtain ⟨-, hodd, hprio, hsuccs⟩ := view_chance hv hs
  refine ⟨hodd, hprio, hsuccs, fun i hi => (view_second hv hs hi).2.1, fun i hi => (view_second hv hs hi).2.2.1,
    fun i hi => ?succs_second, fun j hj => ?owner_third, fun j hj => (view_third hv hs hj).2.2.1,
    fun j hj => (view_third hv hs hj).2.2.2, ?size_built⟩
  case succs_second =>
    rw [(view_second hv hs hi).2.2.2]
    constructor
    · split <;> split <;> simp [third]
      omega
    · intro w
      simp only [List.mem_append, List.mem_ite_nil_right, List.mem_singleton]
      constructor
      · rintro (⟨h0, rfl⟩ | ⟨hle, rfl⟩)
        · exact ⟨2 * i - 1, by omega, Or.inl (by omega), rfl⟩
        · exact ⟨2 * i, hle, Or.inr rfl, rfl⟩
      · rintro ⟨j, hj, hk | rfl, rfl⟩
        · exact Or.inl ⟨by omega, by rw [← hk, Nat.add_sub_cancel]⟩
        · exact Or.inr ⟨hj, rfl⟩
  case owner_third =>
    rw [(view_third hv hs hj).2.1, Player.ofPriority]
    split <;> rfl
  case size_built =>
    obtain ⟨n, hn⟩ := Game.exists_node hv
    obtain ⟨-, hown, hprio, -⟩ := Game.of_node hn
    rw [size_built_succ hn, nodeCount_chance (hown ▸ hs), hprio, secondCount]

theorem replaces_transform (hg : g.Valid) (hp : ∀ v < g.size, g.priority v ≤ infinitePriority) :
    Replaces g (transform g) where
  valid := valid_transform hg fun v hv => Nat.lt_of_le_of_ne (hp v hv) (hg.priority_ne hv)
  owner_ne _ hi := owner_transform hi
  size_mapping := size_mapping g
  handed_out _ hv := size_built hv
  nodes_eq := rfl
  size_eq := (size_transform g).trans (totalCount_eq_sum g)
  increasing _ _ huv hv := image_lt_image huv hv
  kept v hv ho := by
    obtain ⟨-, howner, hprio, hsuccs⟩ := view_player hv ho
    obtain ⟨n, hn⟩ := Game.exists_node hv
    refine ⟨howner, hprio, hsuccs, ?_⟩
    rw [size_built_succ hn, nodeCount_player ((Game.of_node hn).2.1 ▸ ho)]
  layers _ hv hs := layers_transform hv hs

theorem transform?_of_le (h : totalCount g ≤ capacity) : transform? g = some (transform g) :=
  if_neg (Nat.not_lt.mpr h)

theorem transform?_of_lt (h : capacity < totalCount g) : transform? g = none := if_pos h

/-- Every valid game is replaced by its gadget game if there is room for its nodes, and refused otherwise. -/
theorem replaces_or_refuses (hg : g.Valid) (hp : ∀ v < g.size, g.priority v ≤ infinitePriority) :
    (∑ v ∈ Finset.range g.size, blockSize g v ≤ Nat.pow 2 58 → ∃ t, transform? g = some t ∧ Replaces g t) ∧
      (Nat.pow 2 58 < ∑ v ∈ Finset.range g.size, blockSize g v → transform? g = none) := by
  rw [← totalCount_eq_sum]
  constructor
  · intro hroom
    exact ⟨transform g, transform?_of_le hroom, replaces_transform hg hp⟩
  · exact transform?_of_lt

end Gadget

/-- Chance decides at node 0, of even priority, and at node 2, of odd priority; Even stays at node 1 or goes on. -/
def Game.relay : Game Rat :=
  ⟨#[⟨.stochastic, 2, [⟨1, 1 / 2⟩, ⟨0, 1 / 2⟩]⟩, ⟨.even, 0, [⟨1, 1⟩, ⟨2, 1⟩]⟩,
    ⟨.stochastic, 1, [⟨0, 1 / 3⟩, ⟨2, 2 / 3⟩]⟩]⟩

/-- Six nodes stand for node 0, one for node 1 and five for node 2. -/
theorem Gadget.replaces_relay : Game.relay.Valid ∧
    (∀ v < Game.relay.size, Game.relay.priority v ≤ infinitePriority) ∧
    ∑ v ∈ Finset.range Game.relay.size, Gadget.blockSize Game.relay v = 12 ∧
    Gadget.mapping Game.relay = #[0, 6, 7] ∧
    ∃ t, Gadget.transform? Game.relay = some t ∧ Gadget.Replaces Game.relay t := by
  have hg : Game.relay.Valid := by
    rw [Game.valid_iff]
    decide +kernel
  have hp : ∀ v < Game.relay.size, Game.relay.priority v ≤ infinitePriority := by decide
  have hcount : ∑ v ∈ Finset.range Game.relay.size, Gadget.blockSize Game.relay v = 12 := by decide +kernel
  refine ⟨hg, hp, hcount, by decide +kernel, (Gadget.replaces_or_refuses hg hp).1 ?_⟩
  rw [hcount]
  decide

/-- A loop of chance at a priority whose gadget is too large. -/
def Game.chasm : Game Rat := ⟨#[⟨.stochastic, Nat.pow 2 62, [⟨0, 1⟩]⟩]⟩

/-- The chasm is a valid game, but no game replaces it. -/
theorem Gadget.transform_chasm_eq_none : Game.chasm.Valid ∧
    (∀ v < Game.chasm.size, Game.chasm.priority v ≤ infinitePriority) ∧
    Gadget.transform? Game.chasm = none := by
  have hg : Game.chasm.Valid := by
    rw [Game.valid_iff]
    decide +kernel
  exact ⟨hg, by decide, Gadget.transform?_of_lt (by decide +kernel)⟩

end OmegaGames
