import OmegaGames.Proofs.Duality
import OmegaGames.Proofs.GadgetLayout

/-!
# Room for the solvers

Lifting keeps a count for every node and every odd priority up to the largest, and gadgets are the more
nodes of a new game the higher the priorities of chance are. A solver refuses a game whose table or whose
gadgets would not fit into memory. Room for a game is also room for every game whose nodes come from
different nodes of it, without more chance and without higher priorities.
-/
namespace OmegaGames

variable {W : Type}

/-! ## What is needed -/

namespace Lifting

def RoomFor (n : Nat) (g : Game W) : Prop := ∀ v < g.size, n * ((g.priority v + 1) / 2) < Nat.pow 2 61

instance (n : Nat) (g : Game W) : Decidable (RoomFor n g) :=
  inferInstanceAs (Decidable (∀ v < g.size, n * ((g.priority v + 1) / 2) < Nat.pow 2 61))

def HasRoom (g : Game W) : Prop := RoomFor g.size g

instance (g : Game W) : Decidable (HasRoom g) := inferInstanceAs (Decidable (RoomFor g.size g))

theorem capacity_le_tableLength_iff [Scalar W] {g : Game W} (hg : g.Valid) :
    capacity ≤ tableLength g ↔ ¬ HasRoom g := by
  have hpos : ∀ {p : Nat}, capacity ≤ g.size * ((p + 1) / 2) → 0 < p := by
    intro p hp
    refine Nat.pos_of_ne_zero fun hzero => absurd hp ?_
    simp [hzero, capacity]
  have hmono : ∀ {p p' : Nat}, p ≤ p' → g.size * ((p + 1) / 2) ≤ g.size * ((p' + 1) / 2) := fun hle =>
    Nat.mul_le_mul_left _ (Nat.div_le_div_right (Nat.succ_le_succ hle))
  rw [tableLength, HasRoom, RoomFor]
  push Not
  constructor
  · intro h
    obtain ⟨v, hv, hle⟩ := (hg.le_maxPriority_iff (hpos h)).mp le_rfl
    exact ⟨v, hv, h.trans (hmono hle)⟩
  · rintro ⟨v, hv, h⟩
    exact Nat.le_trans h (hmono ((hg.le_maxPriority_iff (hpos h)).mpr ⟨v, hv, le_rfl⟩))

end Lifting

namespace TwoPlayerSolver

def RoomFor (s : TwoPlayerSolver) (n : Nat) (g : Game W) : Prop :=
  match s with
  | .recursive _ => True
  | .lifting _ => Lifting.RoomFor n g

instance (s : TwoPlayerSolver) (n : Nat) (g : Game W) : Decidable (s.RoomFor n g) :=
  match s with
  | .recursive _ => inferInstanceAs (Decidable True)
  | .lifting _ => inferInstanceAs (Decidable (Lifting.RoomFor n g))

def HasRoom (s : TwoPlayerSolver) (g : Game W) : Prop := s.RoomFor g.size g

instance (s : TwoPlayerSolver) (g : Game W) : Decidable (s.HasRoom g) :=
  inferInstanceAs (Decidable (s.RoomFor g.size g))

end TwoPlayerSolver

namespace Gadget

/-- Room for all nodes of the gadget game, and for the solver behind it. -/
def HasRoom (inner : TwoPlayerSolver) (g : Game W) : Prop :=
  ∑ v ∈ Finset.range g.size, blockSize g v ≤ Nat.pow 2 58 ∧
    inner.RoomFor (∑ v ∈ Finset.range g.size, blockSize g v) g

instance (inner : TwoPlayerSolver) (g : Game W) : Decidable (HasRoom inner g) :=
  inferInstanceAs (Decidable (_ ∧ _))

theorem hasRoom_iff [Scalar W] {inner : TwoPlayerSolver} {g : Game W} :
    HasRoom inner g ↔ totalCount g ≤ capacity ∧ inner.RoomFor (totalCount g) g := by
  rw [totalCount_eq_sum]
  rfl

end Gadget

namespace QualitativeSolver

/-- Room for a game, or for its dual if gadgets are used and Odd is strict. -/
def HasRoom (s : QualitativeSolver) (g : Game W) (q : Query) : Prop :=
  match s with
  | .recursive _ => True
  | .lifting _ => Lifting.HasRoom g
  | .gadget inner => Gadget.HasRoom inner (if q.strictEven then g else g.dual)

instance (s : QualitativeSolver) (g : Game W) (q : Query) : Decidable (s.HasRoom g q) :=
  match s with
  | .recursive _ => inferInstanceAs (Decidable True)
  | .lifting _ => inferInstanceAs (Decidable (Lifting.HasRoom g))
  | .gadget inner => inferInstanceAs (Decidable (Gadget.HasRoom inner _))

end QualitativeSolver

/-! ## Games with less to make room for -/

/-- The nodes of one game come from different nodes of another, with priorities at most `k` higher. -/
def Game.Derived (h : Game W) (k : Nat) (g : Game W) : Prop :=
  ∃ f : Nat → Nat, Set.InjOn f (Finset.range h.size) ∧ ∀ v < h.size, f v < g.size ∧
    (h.owner v = .stochastic → g.owner (f v) = .stochastic) ∧ h.priority v ≤ g.priority (f v) + k

namespace Game.Derived

variable {g h : Game W} {k : Nat}

theorem of_size_eq (hsize : h.size = g.size)
    (howner : ∀ v < g.size, h.owner v = .stochastic → g.owner v = .stochastic)
    (hprio : ∀ v < g.size, h.priority v ≤ g.priority v + k) : h.Derived k g := by
  refine ⟨id, Function.injective_id.injOn, fun v hv => ?_⟩
  rw [hsize] at hv
  exact ⟨hv, howner v hv, hprio v hv⟩

theorem size_le (hd : h.Derived k g) : h.size ≤ g.size := by
  obtain ⟨f, hinj, hf⟩ := hd
  have hmaps : Set.MapsTo f (Finset.range h.size) (Finset.range g.size) := fun v hv =>
    Finset.mem_range.mpr (hf v (Finset.mem_range.mp hv)).1
  simpa using Finset.card_le_card_of_injOn f hmaps hinj

theorem sum_blockSize_le (hd : h.Derived 0 g) :
    ∑ v ∈ Finset.range h.size, Gadget.blockSize h v ≤ ∑ v ∈ Finset.range g.size, Gadget.blockSize g v := by
  obtain ⟨f, hinj, hf⟩ := hd
  have hblock : ∀ v ∈ Finset.range h.size, Gadget.blockSize h v ≤ Gadget.blockSize g (f v) := by
    intro v hv
    obtain ⟨-, howner, hle⟩ := hf v (Finset.mem_range.mp hv)
    rw [Gadget.blockSize, Gadget.blockSize]
    split
    · rename_i hs
      rw [if_pos (howner hs)]
      omega
    · split <;> omega
  have hsub : (Finset.range h.size).image f ⊆ Finset.range g.size := by
    intro u hu
    obtain ⟨v, hv, rfl⟩ := Finset.mem_image.mp hu
    exact Finset.mem_range.mpr (hf v (Finset.mem_range.mp hv)).1
  calc ∑ v ∈ Finset.range h.size, Gadget.blockSize h v
      ≤ ∑ v ∈ Finset.range h.size, Gadget.blockSize g (f v) := Finset.sum_le_sum hblock
    _ = ∑ u ∈ (Finset.range h.size).image f, Gadget.blockSize g u := (Finset.sum_image hinj).symm
    _ ≤ ∑ u ∈ Finset.range g.size, Gadget.blockSize g u := Finset.sum_le_sum_of_subset hsub

theorem roomFor (hd : h.Derived 0 g) {m n : Nat} (hmn : m ≤ n) {s : TwoPlayerSolver} (hroom : s.RoomFor n g) :
    s.RoomFor m h := by
  obtain ⟨f, -, hf⟩ := hd
  cases s with
  | recursive _ => trivial
  | lifting _ =>
    intro v hv
    obtain ⟨hlt, -, hle⟩ := hf v hv
    refine (Nat.mul_le_mul hmn (Nat.div_le_div_right ?_)).trans_lt (hroom (f v) hlt)
    omega

/-- The dual game has the priorities that are one higher. -/
theorem dual [Scalar W] (hd : h.Derived 1 g) (hg : g.Valid) : h.Derived 0 g.dual := by
  obtain ⟨f, hinj, hf⟩ := hd
  refine ⟨f, hinj, fun v hv => ?_⟩
  obtain ⟨hlt, howner, hle⟩ := hf v hv
  refine ⟨by rwa [size_dual], fun hs => ?_, by rwa [hg.priority_dual hlt]⟩
  rw [owner_dual, howner hs]
  rfl

end Game.Derived

/-- There is room for a game with less to make room for. -/
theorem QualitativeSolver.HasRoom.mono {s : QualitativeSolver} {g h : Game W} {request : Request}
    (hroom : s.HasRoom g ⟨true, request⟩) (hd : h.Derived 0 g) (request' : Request) :
    s.HasRoom h ⟨true, request'⟩ := by
  cases s with
  | recursive _ => trivial
  | lifting l => exact hd.roomFor hd.size_le (s := .lifting l) hroom
  | gadget inner =>
    obtain ⟨hcount, hinner⟩ := hroom
    exact ⟨hd.sum_blockSize_le.trans hcount, hd.roomFor hd.sum_blockSize_le hinner⟩

end OmegaGames
