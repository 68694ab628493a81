import OmegaGames.Proofs.Duality

/-!
# Normalised priorities

Nodes that have no priority yet get one above all others, and nothing else about the game changes. The dual
game can be normalised before or after the players change places, as long as some node has a priority to count
from. Where none has, all nodes get priority zero, and that favours Even in the game and in the dual game. One
more than the largest priority there is would be the mark of a missing one again: where that priority is taken,
nodes are left without a priority.
-/
namespace OmegaGames

namespace Game

variable {W : Type} {g : Game W} {u v : Nat}

theorem normalize_eq_self (hp : ∀ v < g.size, g.priority v ≠ infinitePriority) : g.normalize = g := by
  obtain ⟨nodes⟩ := g
  simp only [normalize, Game.mk.injEq]
  refine Array.ext_getElem? fun v => ?_
  rw [Array.getElem?_map]
  cases hn : nodes[v]? with
  | none => rfl
  | some n =>
    obtain ⟨hlt, -, hprio, -⟩ := of_node hn
    have hne := hp v hlt
    rw [hprio] at hne
    simp [hne]

@[simp] theorem size_normalize (g : Game W) : g.normalize.size = g.size := by simp [normalize, size]

@[simp] theorem owner_normalize (g : Game W) (v : Nat) : g.normalize.owner v = g.owner v := by
  simp only [owner, normalize, Array.getElem?_map]
  cases g.nodes[v]? with
  | none => rfl
  | some n =>
    dsimp only [Option.map_some]
    split <;> rfl

@[simp] theorem edges_normalize (g : Game W) (v : Nat) : g.normalize.edges v = g.edges v := by
  simp only [edges, normalize, Array.getElem?_map]
  cases g.nodes[v]? with
  | none => rfl
  | some n =>
    dsimp only [Option.map_some]
    split <;> rfl

@[simp] theorem degree_normalize (g : Game W) (v : Nat) : g.normalize.degree v = g.degree v := by
  simp [degree]

theorem priority_normalize_of_ne (h : g.priority v ≠ infinitePriority) :
    g.normalize.priority v = g.priority v := by
  cases hn : g.nodes[v]? with
  | none => simp [normalize, priority, hn]
  | some n =>
    have hne : n.priority ≠ infinitePriority := by simpa [priority, hn] using h
    simp [normalize, priority, hn, hne]

theorem mem_finite_priorities {p : Nat} :
    p ∈ (g.nodes.toList.map Node.priority).filter (· ≠ infinitePriority) ↔
      (∃ v < g.size, g.priority v = p) ∧ p ≠ infinitePriority := by
  simp [g.map_priority_nodes, List.mem_filter]

theorem maxPriority?_eq_some_iff {p : Nat} :
    g.maxPriority? = some p ↔ (∃ v < g.size, g.priority v = p) ∧ p ≠ infinitePriority ∧
      ∀ v < g.size, g.priority v ≠ infinitePriority → g.priority v ≤ p := by
  simp only [maxPriority?, List.max?_eq_some_iff, mem_finite_priorities, and_assoc]
  refine and_congr_right fun _ => and_congr_right fun _ => ⟨fun h v hv hne => ?_, ?_⟩
  · exact h _ ⟨⟨v, hv, rfl⟩, hne⟩
  · rintro h _ ⟨⟨v, hv, rfl⟩, hne⟩
    exact h v hv hne

theorem maxPriority?_eq_none_iff :
    g.maxPriority? = none ↔ ∀ v < g.size, g.priority v = infinitePriority := by
  rw [maxPriority?, List.max?_eq_none_iff, List.eq_nil_iff_forall_not_mem]
  simp only [mem_finite_priorities]
  constructor
  · intro h v hv
    by_contra hne
    exact h _ ⟨⟨v, hv, rfl⟩, hne⟩
  · rintro h _ ⟨⟨v, hv, rfl⟩, hne⟩
    exact hne (h v hv)

theorem normalize_of_max {p : Nat} (h : g.maxPriority? = some p) : g.normalize =
    ⟨g.nodes.map fun n => if n.priority = infinitePriority then { n with priority := p + 1 } else n⟩ := by
  simp only [normalize, h]

theorem priority_normalize_of_max (hv : v < g.size) (h : g.priority v = infinitePriority) {p : Nat}
    (hmax : g.maxPriority? = some p) : g.normalize.priority v = p + 1 := by
  obtain ⟨n, hn⟩ := exists_node hv
  have hinf : n.priority = infinitePriority := by simpa [priority, hn] using h
  simp [normalize_of_max hmax, priority, hn, hinf]

theorem priority_normalize_lt (hu : u < g.size) (hv : v < g.size) (hne : g.priority u ≠ infinitePriority)
    (heq : g.priority v = infinitePriority) : g.normalize.priority u < g.normalize.priority v := by
  cases hmax : g.maxPriority? with
  | none => exact absurd (maxPriority?_eq_none_iff.mp hmax u hu) hne
  | some top =>
    rw [priority_normalize_of_ne hne, priority_normalize_of_max hv heq hmax]
    exact Nat.lt_succ_of_le ((maxPriority?_eq_some_iff.mp hmax).2.2 u hu hne)

theorem priority_normalize_of_all (h : ∀ v < g.size, g.priority v = infinitePriority) (hv : v < g.size) :
    g.normalize.priority v = 0 := by
  obtain ⟨n, hn⟩ := exists_node hv
  have hinf : n.priority = infinitePriority := by simpa [priority, hn] using h v hv
  simp [normalize, priority, hn, hinf, maxPriority?_eq_none_iff.mpr h]

theorem priority_normalize_le (h : ∀ v < g.size, g.priority v ≤ infinitePriority) (hv : v < g.size) :
    g.normalize.priority v ≤ infinitePriority := by
  by_cases hinf : g.priority v = infinitePriority
  · cases hmax : g.maxPriority? with
    | none =>
      rw [priority_normalize_of_all (maxPriority?_eq_none_iff.mp hmax) hv]
      exact Nat.zero_le _
    | some top =>
      obtain ⟨⟨w, hw, rfl⟩, hne, -⟩ := maxPriority?_eq_some_iff.mp hmax
      rw [priority_normalize_of_max hv hinf hmax]
      exact Nat.lt_of_le_of_ne (h w hw) hne
  · rw [priority_normalize_of_ne hinf]
    exact h v hv

/-! ## What normalising achieves -/

/-- Some node has no priority, and some node has the largest one there is: one more than that is the mark of
a missing priority again. -/
def Saturated (g : Game W) : Prop :=
  (∃ u < g.size, g.priority u = infinitePriority) ∧ ∃ v < g.size, g.priority v + 1 = infinitePriority

/-- All nodes without a priority get the same one, above all others. -/
theorem exists_priority_normalize (g : Game W) : ∃ top,
    (∀ v < g.size, g.priority v = infinitePriority → g.normalize.priority v = top) ∧
      ∀ v < g.size, g.priority v ≠ infinitePriority → g.priority v < top := by
  cases hmax : g.maxPriority? with
  | none =>
    have hall := maxPriority?_eq_none_iff.mp hmax
    refine ⟨0, fun v hv _ => priority_normalize_of_all hall hv, fun v hv hne => ?_⟩
    exact absurd (hall v hv) hne
  | some p =>
    obtain ⟨-, -, hle⟩ := maxPriority?_eq_some_iff.mp hmax
    refine ⟨p + 1, fun v hv hinf => priority_normalize_of_max hv hinf hmax, fun v hv hne => ?_⟩
    exact Nat.lt_succ_of_le (hle v hv hne)

/-- A node is left without a priority only if the largest one there is is taken. -/
theorem exists_max_of_priority_normalize (hv : v < g.size) (h : g.normalize.priority v = infinitePriority) :
    g.priority v = infinitePriority ∧ ∃ p, g.maxPriority? = some p ∧ p + 1 = infinitePriority := by
  have hinf : g.priority v = infinitePriority := by
    by_contra hne
    exact hne ((priority_normalize_of_ne hne).symm.trans h)
  refine ⟨hinf, ?_⟩
  cases hmax : g.maxPriority? with
  | none =>
    rw [priority_normalize_of_all (maxPriority?_eq_none_iff.mp hmax) hv] at h
    exact absurd h (by decide)
  | some p =>
    rw [priority_normalize_of_max hv hinf hmax] at h
    exact ⟨p, rfl, h⟩

theorem priority_normalize_eq_infinite_iff (hp : ∀ v < g.size, g.priority v ≤ infinitePriority)
    (hv : v < g.size) : g.normalize.priority v = infinitePriority ↔
      g.priority v = infinitePriority ∧ ∃ w < g.size, g.priority w + 1 = infinitePriority := by
  constructor
  · intro h
    obtain ⟨hinf, p, hmax, hlast⟩ := exists_max_of_priority_normalize hv h
    obtain ⟨⟨w, hw, rfl⟩, -⟩ := maxPriority?_eq_some_iff.mp hmax
    exact ⟨hinf, w, hw, hlast⟩
  · rintro ⟨hinf, w, hw, hlast⟩
    have hfinite : g.priority w ≠ infinitePriority := by omega
    have hlt := priority_normalize_lt hw hv hfinite hinf
    rw [priority_normalize_of_ne hfinite] at hlt
    have hle := priority_normalize_le hp hv
    omega

/-- Where the priority to give is the infinite one, giving it changes nothing. -/
theorem normalize_eq_self_of_max {p : Nat} (hmax : g.maxPriority? = some p) (hp : p + 1 = infinitePriority) :
    g.normalize = g := by
  rw [normalize_of_max hmax, hp]
  obtain ⟨nodes⟩ := g
  rw [Game.mk.injEq]
  refine (Array.map_congr_left fun n _ => ?_).trans nodes.map_id
  split
  · rename_i hn
    rw [← hn]
    rfl
  · rfl

theorem normalize_normalize (g : Game W) : g.normalize.normalize = g.normalize := by
  by_cases hp : ∀ v < g.normalize.size, g.normalize.priority v ≠ infinitePriority
  · exact normalize_eq_self hp
  · push Not at hp
    obtain ⟨v, hv, hleft⟩ := hp
    rw [size_normalize] at hv
    obtain ⟨-, p, hmax, hlast⟩ := exists_max_of_priority_normalize hv hleft
    have hself : g.normalize = g := normalize_eq_self_of_max hmax hlast
    rw [hself, hself]

/-- A game without dead ends, edges that leave it or bad weights: only its priorities can be amiss. -/
def WellLinked [Scalar W] (g : Game W) : Prop :=
  ∀ v < g.size, g.edges v ≠ [] ∧ ∀ e ∈ g.edges v, e.target < g.size ∧
    (g.owner v = .stochastic → Scalar.isFinite e.weight = true ∧ Scalar.le e.weight Scalar.zero = false)

theorem valid_iff_wellLinked [Scalar W] :
    g.Valid ↔ (∀ v < g.size, g.priority v ≠ infinitePriority) ∧ g.WellLinked := by
  rw [valid_iff]
  exact ⟨fun h => ⟨fun v hv => (h v hv).1, fun v hv => (h v hv).2⟩, fun h v hv => ⟨h.1 v hv, h.2 v hv⟩⟩

@[simp] theorem wellLinked_normalize_iff [Scalar W] : g.normalize.WellLinked ↔ g.WellLinked := by
  simp [WellLinked]

/-- Let the priorities of a game be words. Normalising changes nothing but the priorities of the nodes without
one, which all get the same priority above all others, and a second time changes nothing at all. After it no
node is without a priority, and a well linked game is valid, exactly if the game is not saturated. -/
theorem normalize_finite_iff [Scalar W] (g : Game W) (hp : ∀ v < g.size, g.priority v ≤ infinitePriority) :
    (g.normalize.size = g.size ∧ ∀ v < g.size, g.normalize.owner v = g.owner v ∧
      g.normalize.edges v = g.edges v ∧
      (g.priority v ≠ infinitePriority → g.normalize.priority v = g.priority v)) ∧
    (∃ top, (∀ v < g.size, g.priority v = infinitePriority → g.normalize.priority v = top) ∧
      ∀ v < g.size, g.priority v ≠ infinitePriority → g.priority v < top) ∧
    g.normalize.normalize = g.normalize ∧
    ((∀ v < g.normalize.size, g.normalize.priority v ≠ infinitePriority) ↔ ¬ g.Saturated) ∧
    (g.WellLinked → (g.normalize.Valid ↔ ¬ g.Saturated)) := by
  have hfinite : (∀ v < g.normalize.size, g.normalize.priority v ≠ infinitePriority) ↔ ¬ g.Saturated := by
    rw [size_normalize]
    constructor
    · rintro h ⟨⟨u, hu, hinf⟩, hlast⟩
      exact h u hu ((priority_normalize_eq_infinite_iff hp hu).mpr ⟨hinf, hlast⟩)
    · intro h v hv hleft
      obtain ⟨hinf, hlast⟩ := (priority_normalize_eq_infinite_iff hp hv).mp hleft
      exact h ⟨⟨v, hv, hinf⟩, hlast⟩
  refine ⟨⟨g.size_normalize, fun v _ => ?_⟩, g.exists_priority_normalize, g.normalize_normalize, hfinite, ?_⟩
  · exact ⟨g.owner_normalize v, g.edges_normalize v, priority_normalize_of_ne⟩
  · intro hlinked
    rw [valid_iff_wellLinked, wellLinked_normalize_iff, hfinite]
    exact and_iff_left hlinked

/-- Nodes 1 and 3 have no priority, and node 2 has the largest one that leaves room for theirs. -/
def upland : Game Rat :=
  ⟨#[⟨.even, 0, [⟨1, 1⟩]⟩, ⟨.odd, infinitePriority, [⟨2, 1⟩, ⟨3, 1⟩]⟩, ⟨.even, infinitePriority - 2, [⟨0, 1⟩]⟩,
    ⟨.stochastic, infinitePriority, [⟨0, 1 / 2⟩, ⟨3, 1 / 2⟩]⟩]⟩

/-- There is room for one priority more. -/
theorem normalize_upland_finite : (∀ v < upland.size, upland.priority v ≤ infinitePriority) ∧
    upland.WellLinked ∧ ¬ upland.Saturated ∧ upland.normalize.priority 1 = infinitePriority - 1 ∧
    upland.normalize.normalize = upland.normalize ∧ upland.normalize.Valid := by
  have hp : ∀ v < upland.size, upland.priority v ≤ infinitePriority := by decide
  have hlinked : upland.WellLinked := by
    rw [WellLinked]
    decide +kernel
  have hroom : ¬ upland.Saturated := by
    rintro ⟨-, v, hv, hlast⟩
    revert v
    decide
  obtain ⟨-, -, hidem, -, hvalid⟩ := upland.normalize_finite_iff hp
  exact ⟨hp, hlinked, hroom, by decide +kernel, hidem, (hvalid hlinked).mpr hroom⟩

/-- Node 0 has the largest priority there is, and node 1 has none. -/
def ceiling : Game Rat := ⟨#[⟨.even, infinitePriority - 1, [⟨0, 1⟩]⟩, ⟨.even, infinitePriority, [⟨1, 1⟩]⟩]⟩

/-- Node 1 has no priority after normalising either, and the game is not valid. -/
theorem normalize_ceiling_infinite : ceiling.WellLinked ∧
    ceiling.normalize.priority 1 = infinitePriority ∧ ¬ ceiling.normalize.Valid := by
  have hinf : ceiling.normalize.priority 1 = infinitePriority := by decide +kernel
  refine ⟨by rw [WellLinked]; decide +kernel, hinf, fun hvalid => ?_⟩
  exact hvalid.priority_ne (by rw [size_normalize]; decide) hinf

/-! ## The dual game -/

theorem priority_dual (hv : v < g.size) : g.dual.priority v =
    if g.priority v = infinitePriority then infinitePriority else g.priority v + 1 := by
  obtain ⟨n, hn⟩ := exists_node hv
  simp [dual, priority, hn]

variable (hp : ∀ v < g.size, g.priority v = infinitePriority ∨ g.priority v + 1 < infinitePriority)

include hp

theorem maxPriority?_dual {p : Nat} (h : g.maxPriority? = some p) : g.dual.maxPriority? = some (p + 1) := by
  obtain ⟨⟨u, hu, rfl⟩, hne, hle⟩ := maxPriority?_eq_some_iff.mp h
  refine maxPriority?_eq_some_iff.mpr ⟨⟨u, by simpa using hu, ?_⟩, ?_, fun v hv hfinite => ?_⟩
  · rw [priority_dual hu, if_neg hne]
  · exact ((hp u hu).resolve_left hne).ne
  · rw [size_dual] at hv
    rw [priority_dual hv] at hfinite ⊢
    split
    · rename_i hinf
      rw [if_pos hinf] at hfinite
      exact absurd rfl hfinite
    · rename_i hfin
      exact Nat.succ_le_succ (hle v hv hfin)

/-- Where some node has a priority, the dual game is normalised before or after the players change places. -/
theorem normalize_dual (hsome : ∃ v < g.size, g.priority v ≠ infinitePriority) :
    g.dual.normalize = g.normalize.dual := by
  cases hmax : g.maxPriority? with
  | none =>
    obtain ⟨v, hv, hne⟩ := hsome
    exact absurd (maxPriority?_eq_none_iff.mp hmax v hv) hne
  | some top =>
    obtain ⟨⟨w, hw, rfl⟩, hne, -⟩ := maxPriority?_eq_some_iff.mp hmax
    have htop : g.priority w + 1 ≠ infinitePriority := ((hp w hw).resolve_left hne).ne
    rw [normalize_of_max (maxPriority?_dual hp hmax), normalize_of_max hmax]
    simp only [dual, Game.mk.injEq, Array.map_map]
    refine Array.map_congr_left fun n hn => ?_
    obtain ⟨v, hn⟩ := Array.mem_iff_getElem?.mp hn
    obtain ⟨hv, -, hprio, -⟩ := of_node hn
    simp only [Function.comp_apply]
    by_cases hinf : n.priority = infinitePriority
    · simp [hinf, htop]
    · have hfin := ((hp v hv).resolve_left (hprio ▸ hinf)).ne
      rw [hprio] at hfin
      simp [hinf, hfin]

end Game

end OmegaGames
