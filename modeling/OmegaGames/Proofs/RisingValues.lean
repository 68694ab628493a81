import OmegaGames.Proofs.ImprovementDecisions
import Mathlib.Algebra.Order.Archimedean.Basic
import Mathlib.Algebra.Order.BigOperators.Group.Finset
import Mathlib.Algebra.Order.Field.Rat
import Mathlib.Tactic.Linarith

/-!
# Values that rise

Value iteration over exact arithmetic approaches the probabilities from below. A sweep renews the values in
place, so a renewed value is computed from old and new ones; but at every moment, also in the middle of a sweep,
no value exceeds the one that follows from those of the successors. Hence no renewal lowers a value, and none
lifts it above a bound that the steps keep to.

The sum of all values is at most the number of nodes, and every sweep but the last one adds at least the
precision to it. So the sweeps come to an end, and then every value is within the precision of the one that
follows from its successors: a step changes no value by more than its arguments were changed.
-/
namespace OmegaGames

/-! ## Rational arithmetic -/

namespace Scalar

theorem larger_eq_max (a b : Rat) : larger a b = max a b := by
  simp only [larger, isNumber, le, lt, decide_true, Bool.not_true, Bool.false_eq_true, if_false,
    decide_eq_true_eq, le_refl]
  split
  · rename_i h
    exact (max_eq_right h.le).symm
  · rename_i h
    exact (max_eq_left (not_lt.mp h)).symm

theorem smaller_eq_min (a b : Rat) : smaller a b = min a b := by
  simp only [smaller, isNumber, le, lt, decide_true, Bool.not_true, Bool.false_eq_true, if_false,
    decide_eq_true_eq, le_refl]
  split
  · rename_i h
    exact (min_eq_right h.le).symm
  · rename_i h
    exact (min_eq_left (not_lt.mp h)).symm

theorem distance_of_le {a b : Rat} (h : b ≤ a) : distance a b = a - b :=
  if_neg (not_lt.mpr (sub_nonneg.mpr h))

theorem sum_cons (x : Rat) (xs : List Rat) : sum (x :: xs) = x + sum xs := by
  have hfrom : ∀ (a : Rat) (xs : List Rat), xs.foldl (· + ·) a = a + xs.foldl (· + ·) 0 := by
    intro a xs
    induction xs generalizing a with
    | nil => simp
    | cons y ys ih => rw [List.foldl_cons, List.foldl_cons, ih (a + y), ih (0 + y), zero_add, add_assoc]
  exact (hfrom (0 + x) xs).trans (by rw [zero_add]; rfl)

theorem sum_map_le_sum_map {α : Type} {l : List α} {f h : α → Rat} (hle : ∀ x ∈ l, f x ≤ h x) :
    sum (l.map f) ≤ sum (l.map h) := by
  induction l with
  | nil => exact le_refl _
  | cons x l ih =>
    rw [List.map_cons, List.map_cons, sum_cons, sum_cons]
    exact add_le_add (hle x List.mem_cons_self) (ih fun y hy => hle y (List.mem_cons_of_mem x hy))

theorem sum_map_nonneg {α : Type} {l : List α} {f : α → Rat} (h : ∀ x ∈ l, 0 ≤ f x) :
    0 ≤ sum (l.map f) := by
  induction l with
  | nil => exact le_refl _
  | cons x l ih =>
    rw [List.map_cons, sum_cons]
    exact add_nonneg (h x List.mem_cons_self) (ih fun y hy => h y (List.mem_cons_of_mem x hy))

theorem sum_map_add_mul {α : Type} (l : List α) (f h : α → Rat) (d : Rat) :
    sum (l.map fun x => f x + h x * d) = sum (l.map f) + sum (l.map h) * d := by
  induction l with
  | nil =>
    change (0 : Rat) = 0 + 0 * d
    rw [zero_mul, add_zero]
  | cons x l ih =>
    rw [List.map_cons, List.map_cons, List.map_cons, sum_cons, sum_cons, sum_cons, ih]
    ring

theorem foldl_larger_le_iff {α : Type} (f : α → Rat) (l : List α) (a c : Rat) :
    l.foldl (fun best x => larger best (f x)) a ≤ c ↔ a ≤ c ∧ ∀ x ∈ l, f x ≤ c := by
  induction l generalizing a with
  | nil => simp
  | cons x l ih =>
    rw [List.foldl_cons, ih, larger_eq_max, max_le_iff, List.forall_mem_cons, and_assoc]

theorem foldl_smaller_le_iff {α : Type} (f : α → Rat) (l : List α) (a c : Rat) :
    l.foldl (fun best x => smaller best (f x)) a ≤ c ↔ a ≤ c ∨ ∃ x ∈ l, f x ≤ c := by
  induction l generalizing a with
  | nil => simp
  | cons x l ih =>
    rw [List.foldl_cons, ih, smaller_eq_min, min_le_iff, List.exists_mem_cons_iff, or_assoc]

end Scalar

open Scalar

namespace Game

variable (g : Game Rat)

/-- The weights of every stochastic node are probabilities; what they lack of one is lost. -/
def SubStochastic : Prop := ∀ v < g.size, g.owner v = .stochastic →
  (∀ e ∈ g.edges v, 0 ≤ e.weight) ∧ sum ((g.edges v).map Edge.weight) ≤ 1

/-- Bounds that a step keeps to: not negative, at least one on the target, and elsewhere at least the maximum of
the successors' bounds for Even, their minimum for Odd and their weighted sum for chance. -/
structure Caps (target : NodeSet) (b : Nat → Rat) : Prop where
  nonneg : ∀ v < g.size, 0 ≤ b v
  one_le : ∀ v ∈ target, 1 ≤ b v
  even : ∀ v < g.size, v ∉ target → g.owner v = .even → ∀ u ∈ g.succs v, b u ≤ b v
  odd : ∀ v < g.size, v ∉ target → g.owner v = .odd → g.succs v ≠ [] → ∃ u ∈ g.succs v, b u ≤ b v
  chance : ∀ v < g.size, v ∉ target → g.owner v = .stochastic →
    sum ((g.edges v).map fun e => e.weight * b e.target) ≤ b v

variable {g}

theorem SubStochastic.caps_one (hw : g.SubStochastic) (target : NodeSet) : g.Caps target fun _ => 1 where
  nonneg _ _ := zero_le_one
  one_le _ _ := le_refl _
  even _ _ _ _ _ _ := le_refl _
  odd v _ _ _ hne := by
    obtain ⟨u, hu⟩ := List.exists_mem_of_ne_nil _ hne
    exact ⟨u, hu, le_refl _⟩
  chance v hv _ ho := by
    simp only [mul_one]
    exact (hw v hv ho).2

end Game

namespace ValueIteration

/-! ## Sweeps without a bound -/

section Sweeps

variable {W : Type} [Scalar W] {g : Game W}

def renewAll (g : Game W) (values : Array W) (vs : List Nat) : Array W :=
  (vs.foldl (renew g) (values, zero)).1

/-- The largest change so far has no influence on the values. -/
theorem foldl_renew_fst (values : Array W) (change : W) (vs : List Nat) :
    (vs.foldl (renew g) (values, change)).1 = renewAll g values vs := by
  have hfst : ∀ (vs : List Nat) (values : Array W) (c d : W),
      (vs.foldl (renew g) (values, c)).1 = (vs.foldl (renew g) (values, d)).1 := by
    intro vs
    induction vs with
    | nil => exact fun _ _ _ => rfl
    | cons v vs ih => exact fun values c d => ih _ _ _
  exact hfst vs values change zero

theorem renewAll_cons (values : Array W) (v : Nat) (vs : List Nat) :
    renewAll g values (v :: vs) = renewAll g (renewAll g values [v]) vs :=
  foldl_renew_fst _ _ vs

theorem renewAll_append (values : Array W) (us vs : List Nat) :
    renewAll g values (us ++ vs) = renewAll g (renewAll g values us) vs := by
  rw [renewAll, List.foldl_append]
  exact foldl_renew_fst _ _ vs

theorem valueAt_renewAll_singleton (values : Array W) (u v : Nat) :
    valueAt (renewAll g values [u]) v =
      if u = v ∧ v < values.size then stepValue g values u else valueAt values v := by
  by_cases huv : u = v
  · subst huv
    by_cases hlt : u < values.size <;>
      simp [renewAll, renew, valueAt, Array.getD_eq_getD_getElem?, hlt]
  · rw [if_neg fun h => huv h.1]
    exact valueAt_renew_of_ne g (values, zero) huv

theorem size_renewAll (values : Array W) (vs : List Nat) : (renewAll g values vs).size = values.size := by
  induction vs generalizing values with
  | nil => rfl
  | cons v vs ih =>
    rw [renewAll_cons, ih]
    simp [renewAll, renew]

/-- The nodes that have been renewed at some moment: those of whole sweeps and the first ones of the next. -/
def Moment (unknown vs : List Nat) : Prop := ∃ k, vs <+: (List.replicate k unknown).flatten

theorem Moment.subset {unknown vs : List Nat} (h : Moment unknown vs) : vs ⊆ unknown := by
  obtain ⟨k, hk⟩ := h
  intro v hv
  obtain ⟨us, hus, hv⟩ := List.mem_flatten.mp (hk.subset hv)
  exact List.eq_of_mem_replicate hus ▸ hv

/-- Sweeps until the largest change is below the precision, however many it takes. -/
inductive Settles (g : Game W) (precision : W) (unknown : List Nat) : Array W → Array W → Prop
  | rest {values : Array W} (h : lt (sweep g unknown values).2 precision = true) :
      Settles g precision unknown values (sweep g unknown values).1
  | again {values result : Array W} (h : lt (sweep g unknown values).2 precision = false)
      (hrest : Settles g precision unknown (sweep g unknown values).1 result) :
      Settles g precision unknown values result

variable {precision : W} {unknown : List Nat} {values result : Array W}

theorem settles_of_settle {sweeps : Nat} (h : settle g precision unknown sweeps values = some result) :
    Settles g precision unknown values result := by
  induction sweeps generalizing values with
  | zero => cases h
  | succ sweeps ih =>
    simp only [settle] at h
    split at h
    · rename_i hlt
      cases h
      exact .rest hlt
    · rename_i hlt
      exact .again (Bool.not_eq_true _ ▸ hlt) (ih h)

theorem Settles.unique {result' : Array W} (h : Settles g precision unknown values result)
    (h' : Settles g precision unknown values result') : result = result' := by
  induction h with
  | rest h =>
    cases h' with
    | rest => rfl
    | again hnot => cases h.symm.trans hnot
  | again hnot _ ih =>
    cases h' with
    | rest h => cases h.symm.trans hnot
    | again _ hrest => exact ih hrest

/-- The end of the sweeps is a moment of them. -/
theorem Settles.exists_renewAll (h : Settles g precision unknown values result) :
    ∃ k, result = renewAll g values (List.replicate k unknown).flatten := by
  induction h with
  | rest => exact ⟨1, by simp [sweep, renewAll]⟩
  | again _ _ ih =>
    obtain ⟨k, hk⟩ := ih
    refine ⟨k + 1, ?_⟩
    rw [hk, List.replicate_succ, List.flatten_cons, renewAll_append]
    rfl

end Sweeps

/-! ## A step -/

section Step

variable {g : Game Rat} {x y : Array Rat} {v : Nat}

theorem stepValue_even_le_iff (ho : g.owner v = .even) {c : Rat} :
    stepValue g x v ≤ c ↔ 0 ≤ c ∧ ∀ u ∈ g.succs v, valueAt x u ≤ c := by
  rw [stepValue, ho]
  exact foldl_larger_le_iff _ _ _ _

theorem stepValue_odd_le_iff (ho : g.owner v = .odd) {c : Rat} :
    stepValue g x v ≤ c ↔ if g.succs v = [] then 0 ≤ c else ∃ u ∈ g.succs v, valueAt x u ≤ c := by
  rw [stepValue, ho]
  cases g.succs v with
  | nil => exact Iff.rfl
  | cons u us =>
    rw [if_neg (List.cons_ne_nil u us), List.exists_mem_cons_iff]
    exact foldl_smaller_le_iff _ _ _ _

theorem stepValue_chance (ho : g.owner v = .stochastic) :
    stepValue g x v = sum ((g.edges v).map fun e => e.weight * valueAt x e.target) := by
  rw [stepValue, ho]
  rfl

variable (hw : g.SubStochastic) (hv : v < g.size)

include hw hv

theorem stepValue_nonneg (hx : ∀ u, 0 ≤ valueAt x u) : 0 ≤ stepValue g x v := by
  cases ho : g.owner v with
  | even => exact ((stepValue_even_le_iff ho).mp (le_refl _)).1
  | odd =>
    have hmin := (stepValue_odd_le_iff (x := x) ho).mp (le_refl _)
    split at hmin
    · exact hmin
    · obtain ⟨u, -, hu⟩ := hmin
      exact (hx u).trans hu
  | stochastic =>
    rw [stepValue_chance ho]
    exact sum_map_nonneg fun e he => mul_nonneg ((hw v hv ho).1 e he) (hx e.target)

theorem stepValue_mono (hxy : ∀ u, valueAt x u ≤ valueAt y u) : stepValue g x v ≤ stepValue g y v := by
  cases ho : g.owner v with
  | even =>
    obtain ⟨hzero, hall⟩ := (stepValue_even_le_iff (x := y) ho).mp (le_refl _)
    exact (stepValue_even_le_iff ho).mpr ⟨hzero, fun u hu => (hxy u).trans (hall u hu)⟩
  | odd =>
    have hmin := (stepValue_odd_le_iff (x := y) ho).mp (le_refl _)
    rw [stepValue_odd_le_iff ho]
    split
    · rename_i hnil
      rwa [if_pos hnil] at hmin
    · rename_i hne
      rw [if_neg hne] at hmin
      obtain ⟨u, hu, hle⟩ := hmin
      exact ⟨u, hu, (hxy u).trans hle⟩
  | stochastic =>
    rw [stepValue_chance ho, stepValue_chance ho]
    exact sum_map_le_sum_map fun e he => mul_le_mul_of_nonneg_left (hxy e.target) ((hw v hv ho).1 e he)

theorem stepValue_le_add {d : Rat} (hd : 0 ≤ d) (hxy : ∀ u, valueAt y u ≤ valueAt x u + d) :
    stepValue g y v ≤ stepValue g x v + d := by
  cases ho : g.owner v with
  | even =>
    obtain ⟨hzero, hall⟩ := (stepValue_even_le_iff (x := x) ho).mp (le_refl _)
    refine (stepValue_even_le_iff ho).mpr ⟨add_nonneg hzero hd, fun u hu => ?_⟩
    exact (hxy u).trans (add_le_add_left (hall u hu) d)
  | odd =>
    have hmin := (stepValue_odd_le_iff (x := x) ho).mp (le_refl _)
    rw [stepValue_odd_le_iff ho]
    split
    · rename_i hnil
      rw [if_pos hnil] at hmin
      exact add_nonneg hmin hd
    · rename_i hne
      rw [if_neg hne] at hmin
      obtain ⟨u, hu, hle⟩ := hmin
      exact ⟨u, hu, (hxy u).trans (add_le_add_left hle d)⟩
  | stochastic =>
    obtain ⟨hnonneg, hsum⟩ := hw v hv ho
    rw [stepValue_chance ho, stepValue_chance ho]
    calc sum ((g.edges v).map fun e => e.weight * valueAt y e.target)
        ≤ sum ((g.edges v).map fun e => e.weight * valueAt x e.target + e.weight * d) := by
          refine sum_map_le_sum_map fun e he => ?_
          rw [← mul_add]
          exact mul_le_mul_of_nonneg_left (hxy e.target) (hnonneg e he)
      _ = sum ((g.edges v).map fun e => e.weight * valueAt x e.target) +
            sum ((g.edges v).map Edge.weight) * d := sum_map_add_mul _ _ _ d
      _ ≤ sum ((g.edges v).map fun e => e.weight * valueAt x e.target) + d :=
          add_le_add_right (mul_le_of_le_one_left hd hsum) _

theorem stepValue_le_cap (hc : g.isClosed = true) {target : NodeSet} {b : Nat → Rat} (hb : g.Caps target b)
    (ht : v ∉ target) (hx : ∀ u < g.size, valueAt x u ≤ b u) : stepValue g x v ≤ b v := by
  have hsucc : ∀ u ∈ g.succs v, valueAt x u ≤ b u := fun u hu => hx u (g.isClosed_iff.mp hc v u hu)
  cases ho : g.owner v with
  | even =>
    refine (stepValue_even_le_iff ho).mpr ⟨hb.nonneg v hv, fun u hu => ?_⟩
    exact (hsucc u hu).trans (hb.even v hv ht ho u hu)
  | odd =>
    rw [stepValue_odd_le_iff ho]
    split
    · exact hb.nonneg v hv
    · rename_i hne
      obtain ⟨u, hu, hle⟩ := hb.odd v hv ht ho hne
      exact ⟨u, hu, (hsucc u hu).trans hle⟩
  | stochastic =>
    rw [stepValue_chance ho]
    refine (sum_map_le_sum_map fun e he => ?_).trans (hb.chance v hv ht ho)
    exact mul_le_mul_of_nonneg_left (hsucc _ (List.mem_map_of_mem he)) ((hw v hv ho).1 e he)

end Step

/-! ## Rising values -/

/-- Values that are not negative and that no renewal of a listed node lowers. -/
structure Rising (g : Game Rat) (unknown : List Nat) (values : Array Rat) : Prop where
  size_eq : values.size = g.size
  nonneg : ∀ v, 0 ≤ valueAt values v
  raised : ∀ v ∈ unknown, valueAt values v ≤ stepValue g values v

namespace Rising

variable {g : Game Rat} {unknown vs : List Nat} {values : Array Rat} {v : Nat}

theorem valueAt_le_renew (h : Rising g unknown values) (hv : v ∈ unknown) (u : Nat) :
    valueAt values u ≤ valueAt (renewAll g values [v]) u := by
  rw [valueAt_renewAll_singleton]
  split
  · rename_i huv
    rw [← huv.1]
    exact h.raised v hv
  · exact le_refl _

variable (hw : g.SubStochastic) (hu : ∀ v ∈ unknown, v < g.size)

include hw hu

/-- A renewal raises one value, and the steps from all others are raised by that. -/
theorem renew (h : Rising g unknown values) (hv : v ∈ unknown) : Rising g unknown (renewAll g values [v]) where
  size_eq := (size_renewAll values [v]).trans h.size_eq
  nonneg u := (h.nonneg u).trans (h.valueAt_le_renew hv u)
  raised u huu := by
    have hmono : stepValue g values u ≤ stepValue g (renewAll g values [v]) u :=
      stepValue_mono hw (hu u huu) (h.valueAt_le_renew hv)
    rw [valueAt_renewAll_singleton]
    split
    · rename_i hvu
      obtain ⟨rfl, -⟩ := hvu
      exact hmono
    · exact (h.raised u huu).trans hmono

/-- After any renewals the values still rise, and none of them has become smaller. -/
theorem renewAll (h : Rising g unknown values) (hvs : vs ⊆ unknown) :
    Rising g unknown (renewAll g values vs) ∧
      ∀ u, valueAt values u ≤ valueAt (ValueIteration.renewAll g values vs) u := by
  induction vs generalizing values with
  | nil => exact ⟨h, fun u => le_refl _⟩
  | cons v vs ih =>
    obtain ⟨hv, hvs⟩ := List.cons_subset.mp hvs
    obtain ⟨hrising, hle⟩ := ih (h.renew hw hu hv) hvs
    rw [renewAll_cons]
    exact ⟨hrising, fun u => (h.valueAt_le_renew hv u).trans (hle u)⟩

end Rising

theorem valueAt_renewAll_le_cap {g : Game Rat} {target : NodeSet} {b : Nat → Rat} {vs : List Nat}
    (hw : g.SubStochastic) (hc : g.isClosed = true) (hb : g.Caps target b)
    (hvs : ∀ v ∈ vs, v < g.size ∧ v ∉ target) {values : Array Rat}
    (hx : ∀ u < g.size, valueAt values u ≤ b u) :
    ∀ u < g.size, valueAt (renewAll g values vs) u ≤ b u := by
  induction vs generalizing values with
  | nil => exact hx
  | cons v vs ih =>
    obtain ⟨⟨hv, ht⟩, hrest⟩ := List.forall_mem_cons.mp hvs
    rw [renewAll_cons]
    refine ih hrest fun u hlt => ?_
    rw [valueAt_renewAll_singleton]
    split
    · rename_i huv
      rw [← huv.1]
      exact stepValue_le_cap hw hv hc hb ht hx
    · exact hx u hlt

/-! ## The sum of all values -/

def total (g : Game Rat) (values : Array Rat) : Rat := ∑ v ∈ Finset.range g.size, valueAt values v

section Total

variable {g : Game Rat} {unknown vs : List Nat} {values : Array Rat} {v : Nat}

theorem total_le_size (h : ∀ v < g.size, valueAt values v ≤ 1) : total g values ≤ g.size := by
  calc total g values ≤ ∑ v ∈ Finset.range g.size, (1 : Rat) :=
        Finset.sum_le_sum fun v hv => h v (Finset.mem_range.mp hv)
    _ = g.size := by simp

theorem total_renew (hsize : values.size = g.size) (hv : v < g.size) :
    total g (renewAll g values [v]) = total g values + (stepValue g values v - valueAt values v) := by
  have hdiff : ∑ u ∈ Finset.range g.size, (valueAt (renewAll g values [v]) u - valueAt values u) =
      stepValue g values v - valueAt values v := by
    rw [Finset.sum_eq_single v]
    · rw [valueAt_renewAll_singleton, if_pos ⟨rfl, hsize ▸ hv⟩]
    · intro u _ hne
      rw [valueAt_renewAll_singleton, if_neg fun h => hne h.1.symm, sub_self]
    · exact fun hnot => absurd (Finset.mem_range.mpr hv) hnot
  rw [← hdiff, Finset.sum_sub_distrib, total, total]
  ring

variable (hw : g.SubStochastic) (hu : ∀ v ∈ unknown, v < g.size)

include hw hu

/-- The largest change is part of what is added to the sum. -/
theorem change_le_total (h : Rising g unknown values) (hvs : vs ⊆ unknown) {change : Rat} (hc : 0 ≤ change) :
    (vs.foldl (renew g) (values, change)).2 ≤ change + (total g (renewAll g values vs) - total g values) := by
  induction vs generalizing values change with
  | nil => simp [renewAll]
  | cons v vs ih =>
    obtain ⟨hv, hvs⟩ := List.cons_subset.mp hvs
    have hrise := sub_nonneg.mpr (h.raised v hv)
    have hstep : (renew g (values, change) v).2 ≤ change + (stepValue g values v - valueAt values v) := by
      rw [renew, larger_eq_max, distance_of_le (h.raised v hv)]
      exact max_le (by linarith) (by linarith)
    have hnonneg : 0 ≤ (renew g (values, change) v).2 := by
      rw [renew, larger_eq_max]
      exact hc.trans (le_max_left _ _)
    have hrest := ih (h.renew hw hu hv) hvs hnonneg
    rw [total_renew h.size_eq (hu v hv)] at hrest
    rw [renewAll_cons]
    calc ((v :: vs).foldl (renew g) (values, change)).2
        ≤ (renew g (values, change) v).2 + _ := hrest
      _ ≤ _ := by linarith

theorem sweep_change_le (h : Rising g unknown values) :
    (sweep g unknown values).2 ≤ total g (sweep g unknown values).1 - total g values := by
  have hle := change_le_total hw hu h (List.Subset.refl _) (le_refl (0 : Rat))
  rwa [zero_add] at hle

/-- With enough sweeps for the sum to reach the number of nodes, the values come to rest. -/
theorem exists_settle (hc : g.isClosed = true) {target : NodeSet} (ht : ∀ v ∈ unknown, v ∉ target)
    {precision : Rat} {sweeps : Nat} (h : Rising g unknown values) (hone : ∀ v < g.size, valueAt values v ≤ 1)
    (hs : g.size - total g values < sweeps * precision) :
    ∃ result, settle g precision unknown sweeps values = some result := by
  induction sweeps generalizing values with
  | zero =>
    have hle := total_le_size hone
    rw [Nat.cast_zero, zero_mul] at hs
    linarith
  | succ sweeps ih =>
    simp only [settle]
    split
    · exact ⟨_, rfl⟩
    · rename_i hnot
      have hlarge : precision ≤ (sweep g unknown values).2 :=
        not_lt.mp fun hlt => hnot (decide_eq_true hlt)
      have hrise := sweep_change_le hw hu h
      obtain ⟨hrising, -⟩ := h.renewAll hw hu (List.Subset.refl unknown)
      refine ih hrising ?_ ?_
      · exact valueAt_renewAll_le_cap hw hc (hw.caps_one target) (fun v hv => ⟨hu v hv, ht v hv⟩) hone
      · rw [Nat.cast_succ, add_mul, one_mul] at hs
        linarith

end Total

/-! ## When the values have come to rest -/

section Rest

variable {g : Game Rat} {unknown vs : List Nat} {values result : Array Rat} {v : Nat}

theorem le_foldl_change (vs : List Nat) (state : Array Rat × Rat) :
    state.2 ≤ (vs.foldl (renew g) state).2 := by
  induction vs generalizing state with
  | nil => exact le_refl _
  | cons v vs ih =>
    refine le_trans ?_ (ih _)
    rw [renew, larger_eq_max]
    exact le_max_left _ _

variable (hw : g.SubStochastic) (hu : ∀ v ∈ unknown, v < g.size)

include hw hu

/-- A node that is renewed once is raised by no more than the largest change. -/
theorem valueAt_renewAll_le_add_change (h : Rising g unknown values) (hvs : vs ⊆ unknown) (hd : vs.Nodup)
    {change : Rat} (hc : 0 ≤ change) (u : Nat) : valueAt (renewAll g values vs) u ≤
      valueAt values u + (vs.foldl (renew g) (values, change)).2 := by
  induction vs generalizing values change with
  | nil => exact le_add_of_nonneg_right hc
  | cons v vs ih =>
    obtain ⟨hv, hvs⟩ := List.cons_subset.mp hvs
    obtain ⟨hfresh, hd⟩ := List.nodup_cons.mp hd
    have hlast : (renew g (values, change) v).2 ≤ ((v :: vs).foldl (renew g) (values, change)).2 :=
      le_foldl_change vs _
    have hlarger : (renew g (values, change) v).2 = max change (stepValue g values v - valueAt values v) := by
      rw [renew, larger_eq_max, distance_of_le (h.raised v hv)]
    rw [hlarger] at hlast
    rw [renewAll_cons]
    by_cases huv : v = u
    · subst huv
      have hkept : valueAt (renewAll g (renewAll g values [v]) vs) v = stepValue g values v := by
        rw [renewAll, valueAt_foldl_renew_of_notMem g hfresh, valueAt_renewAll_singleton,
          if_pos ⟨rfl, h.size_eq ▸ hu v hv⟩]
      have hstep := (le_max_right _ _).trans hlast
      linarith
    · have hold : valueAt (renewAll g values [v]) u = valueAt values u := by
        rw [valueAt_renewAll_singleton, if_neg fun h => huv h.1]
      have hnonneg : 0 ≤ (renew g (values, change) v).2 := hlarger ▸ hc.trans (le_max_left _ _)
      have hrest := ih (h.renew hw hu hv) hvs hd hnonneg
      rwa [hold] at hrest

/-- After a sweep no step raises a value by more than the largest change: each node was renewed from values that
the rest of the sweep has raised by no more than that. -/
theorem stepValue_sweep_le (h : Rising g unknown values) (hd : unknown.Nodup) (hv : v ∈ unknown) :
    stepValue g (sweep g unknown values).1 v ≤
      valueAt (sweep g unknown values).1 v + (sweep g unknown values).2 := by
  obtain ⟨us, ws, hsplit⟩ := List.append_of_mem hv
  have hfresh : v ∉ ws := by
    rw [hsplit] at hd
    exact (List.nodup_cons.mp (List.nodup_append.mp hd).2.1).1
  have hus : us ⊆ unknown := hsplit ▸ List.subset_append_left us (v :: ws)
  obtain ⟨hbefore, hle⟩ := h.renewAll hw hu hus
  have hvalue : valueAt (sweep g unknown values).1 v = stepValue g (renewAll g values us) v := by
    have heq : (sweep g unknown values).1 = renewAll g (renewAll g (renewAll g values us) [v]) ws := by
      rw [← renewAll_cons, ← renewAll_append, ← hsplit]
      rfl
    rw [heq, renewAll, valueAt_foldl_renew_of_notMem g hfresh, valueAt_renewAll_singleton,
      if_pos ⟨rfl, hbefore.size_eq ▸ hu v hv⟩]
  have hnonneg : 0 ≤ (sweep g unknown values).2 := le_foldl_change unknown (values, zero)
  rw [hvalue]
  refine stepValue_le_add hw (hu v hv) hnonneg fun u => ?_
  exact (valueAt_renewAll_le_add_change hw hu h (List.Subset.refl _) hd (le_refl (0 : Rat)) u).trans
    (add_le_add_left (hle u) _)

/-- When the sweeps have ended, every step raises its value by less than the precision. -/
theorem Settles.stepValue_lt {precision : Rat} (hs : Settles g precision unknown values result)
    (h : Rising g unknown values) (hd : unknown.Nodup) (hv : v ∈ unknown) :
    stepValue g result v < valueAt result v + precision := by
  induction hs with
  | rest hlt =>
    exact (stepValue_sweep_le hw hu h hd hv).trans_lt (add_lt_add_right (of_decide_eq_true hlt) _)
  | again _ _ ih => exact ih (h.renewAll hw hu (List.Subset.refl unknown)).1

end Rest

/-! ## From the start to the end -/

/-- Values that approach the probabilities of reaching a target from below. -/
structure FromBelow (g : Game Rat) (target : NodeSet) (values : Array Rat) : Prop where
  size_eq : values.size = g.size
  nonneg : ∀ v < g.size, 0 ≤ valueAt values v
  le_one : ∀ v < g.size, valueAt values v ≤ 1
  on_target : ∀ v ∈ target, valueAt values v = 1
  unreachable : ∀ v < g.size, v ∉ g.arena.strongAttractor target (.full g.size) .even → valueAt values v = 0
  le_cap : ∀ b, g.Caps target b → ∀ v < g.size, valueAt values v ≤ b v

section Run

variable {g : Game Rat} {target : NodeSet}

theorem mem_unknown_iff {v : Nat} : v ∈ unknown g.arena target ↔
    v ∈ g.arena.strongAttractor target (.full g.size) .even ∧ v ∉ target := by
  rw [unknown, NodeSet.mem_toList, ← NodeSet.mem_iff, NodeSet.mem_diff]
  rfl

theorem of_mem_unknown {v : Nat} (hv : v ∈ unknown g.arena target) : v < g.size ∧ v ∉ target := by
  obtain ⟨hattracted, hout⟩ := mem_unknown_iff.mp hv
  obtain ⟨f, hf, hatt⟩ := g.attraction_strongAttractor target .even (NodeSet.range_full g.size)
  rw [← hf] at hattracted
  exact ⟨NodeSet.mem_full.mp (hatt.inside v hattracted), hout⟩

theorem valueAt_start_eq_zero {v : Nat} (hv : v ∉ target) : valueAt (start g target) v = 0 := by
  by_cases hlt : v < g.size
  · rw [valueAt_start hlt, if_neg (mt (NodeSet.mem_iff v target).mpr hv)]
    rfl
  · simp [valueAt, start, Array.getD_eq_getD_getElem?, hlt]
    rfl

variable (hw : g.SubStochastic) (ht : target.range = g.size)

include ht in
theorem valueAt_start_eq_one {v : Nat} (hv : v ∈ target) : valueAt (start g target) v = 1 := by
  rw [valueAt_start (ht ▸ NodeSet.lt_range hv), if_pos ((NodeSet.mem_iff v target).mp hv)]
  rfl

include hw ht

theorem rising_start : Rising g (unknown g.arena target) (start g target) := by
  have hnonneg : ∀ v, 0 ≤ valueAt (start g target) v := by
    intro v
    by_cases hv : v ∈ target
    · rw [valueAt_start_eq_one ht hv]
      exact zero_le_one
    · rw [valueAt_start_eq_zero hv]
  refine ⟨by simp [start], hnonneg, fun v hv => ?_⟩
  obtain ⟨hlt, hout⟩ := of_mem_unknown hv
  rw [valueAt_start_eq_zero hout]
  exact stepValue_nonneg hw hlt hnonneg

variable (hc : g.isClosed = true) {vs : List Nat} (hvs : vs ⊆ unknown g.arena target)

include hc hvs

theorem valueAt_renewAll_start_le {b : Nat → Rat} (hb : g.Caps target b) {v : Nat} (hv : v < g.size) :
    valueAt (renewAll g (start g target) vs) v ≤ b v := by
  refine valueAt_renewAll_le_cap hw hc hb (fun u hu => of_mem_unknown (hvs hu)) (fun u hu => ?_) v hv
  by_cases hmem : u ∈ target
  · rw [valueAt_start_eq_one ht hmem]
    exact hb.one_le u hmem
  · rw [valueAt_start_eq_zero hmem]
    exact hb.nonneg u hu

theorem fromBelow_renewAll : FromBelow g target (renewAll g (start g target) vs) := by
  have hrising := ((rising_start hw ht).renewAll hw (fun v hv => (of_mem_unknown hv).1) hvs).1
  have hframe : ∀ v, v ∉ unknown g.arena target →
      valueAt (renewAll g (start g target) vs) v = valueAt (start g target) v := fun v hv =>
    valueAt_foldl_renew_of_notMem g (fun hmem => hv (hvs hmem)) _
  refine ⟨hrising.size_eq, fun v _ => hrising.nonneg v, fun v hv => ?_, fun v hv => ?_, fun v hv hout => ?_,
    fun b hb v hv => valueAt_renewAll_start_le hw ht hc hvs hb hv⟩
  · exact valueAt_renewAll_start_le hw ht hc hvs (hw.caps_one target) hv
  · rw [hframe v fun hmem => (mem_unknown_iff.mp hmem).2 hv, valueAt_start_eq_one ht hv]
  · rw [hframe v fun hmem => hout (mem_unknown_iff.mp hmem).1, valueAt_start_eq_zero]
    obtain ⟨f, hf, hatt⟩ := g.attraction_strongAttractor target .even (NodeSet.range_full g.size)
    exact fun hmem => hout (hf ▸ hatt.seeded v (NodeSet.mem_full.mpr hv) hmem)

end Run

/-- In a closed game with probabilities as weights, the values approach the probabilities from below at every
moment of every sweep, and none of them becomes smaller from one moment to a later one. For every positive
precision the sweeps come to an end, and a solver that is allowed more sweeps than there are precisions in the
number of nodes returns the values that they end with. These differ by less than the precision from the values
that follow from them by a step. -/
theorem solve_from_below (g : Game Rat) (target : NodeSet) (hc : g.isClosed = true)
    (ht : target.range = g.size) (hw : g.SubStochastic) :
    (∀ vs, Moment (unknown g.arena target) vs → FromBelow g target (renewAll g (start g target) vs) ∧
      ∀ us, us <+: vs → ∀ v,
        valueAt (renewAll g (start g target) us) v ≤ valueAt (renewAll g (start g target) vs) v) ∧
    ∀ precision : Rat, 0 < precision → ∃ k result,
      result = renewAll g (start g target) (List.replicate k (unknown g.arena target)).flatten ∧
      Settles g precision (unknown g.arena target) (start g target) result ∧
      (∀ v ∈ unknown g.arena target, valueAt result v ≤ stepValue g result v ∧
        stepValue g result v < valueAt result v + precision) ∧
      ∀ (s : ValueIteration Rat) (request : Request), s.precision = precision →
        g.size < s.sweeps * precision → ∃ o, s.solve g target request = .ok o ∧ o.values = result := by
  have hlt : ∀ v ∈ unknown g.arena target, v < g.size := fun v hv => (of_mem_unknown hv).1
  have hstart := rising_start hw ht
  refine ⟨fun vs hvs => ⟨fromBelow_renewAll hw ht hc hvs.subset, ?_⟩, fun precision hp => ?_⟩
  · rintro us ⟨rest, rfl⟩ v
    have hsub := hvs.subset
    rw [renewAll_append]
    have hus := (hstart.renewAll hw hlt (List.append_subset.mp hsub).1).1
    exact (hus.renewAll hw hlt (List.append_subset.mp hsub).2).2 v
  · have hbelow : FromBelow g target (start g target) := fromBelow_renewAll hw ht hc (List.nil_subset _)
    have hnonneg : 0 ≤ total g (start g target) :=
      Finset.sum_nonneg fun v _ => hstart.nonneg v
    have henough : ∀ sweeps : Nat, g.size < sweeps * precision →
        ∃ result, settle g precision (unknown g.arena target) sweeps (start g target) = some result := by
      intro sweeps hs
      exact exists_settle hw hlt hc (fun v hv => (of_mem_unknown hv).2) hstart hbelow.le_one (by linarith)
    obtain ⟨sweeps, hsweeps⟩ := exists_nat_gt (g.size / precision)
    obtain ⟨result, hresult⟩ := henough sweeps ((div_lt_iff₀ hp).mp hsweeps)
    have hsettles := settles_of_settle hresult
    obtain ⟨k, hk⟩ := hsettles.exists_renewAll
    have hmoment : Moment (unknown g.arena target)
        (List.replicate k (unknown g.arena target)).flatten := ⟨k, List.prefix_rfl⟩
    have hend := (hstart.renewAll hw hlt hmoment.subset).1
    rw [← hk] at hend
    refine ⟨k, result, hk, hsettles, fun v hv => ⟨hend.raised v hv, ?_⟩, ?_⟩
    · exact hsettles.stepValue_lt hw hlt hstart (NodeSet.nodup_toList _) hv
    rintro s request rfl hs
    obtain ⟨result', hresult'⟩ := henough s.sweeps hs
    rw [hsettles.unique (settles_of_settle hresult')]
    exact ⟨_, solve_eq_ok hc hresult' request, rfl⟩

end ValueIteration

/-- Chance at node 0 comes to nodes 1 and 2 equally often, if it does not stay. Odd at node 3 can go to node 0 or to
node 1, and Even at node 4 to node 0 or to node 2. -/
def Game.dither : Game Rat :=
  ⟨#[⟨.stochastic, 0, [⟨0, 1 / 2⟩, ⟨1, 1 / 4⟩, ⟨2, 1 / 4⟩]⟩, ⟨.even, 0, [⟨1, 1⟩]⟩, ⟨.odd, 1, [⟨2, 1⟩]⟩,
    ⟨.odd, 0, [⟨0, 1⟩, ⟨1, 1⟩]⟩, ⟨.even, 1, [⟨0, 1⟩, ⟨2, 1⟩]⟩]⟩

/-- No sweep brings the value of node 0 above one half. -/
theorem ValueIteration.solve_dither_from_below : Game.dither.isClosed = true ∧
    (NodeSet.ofList 5 [1]).range = Game.dither.size ∧ Game.dither.SubStochastic ∧
    ∃ o, (⟨1 / 100, 0, 501⟩ : ValueIteration Rat).solve Game.dither (.ofList 5 [1]) .none = .ok o ∧
      o.value 1 = 1 ∧ o.value 2 = 0 ∧ o.value 0 ≤ 1 / 2 ∧ o.value 3 ≤ 1 / 2 ∧ o.value 4 ≤ 1 / 2 := by
  have hc : Game.dither.isClosed = true := by decide
  have ht : (NodeSet.ofList 5 [1]).range = Game.dither.size := NodeSet.range_ofList _ _
  have hw : Game.dither.SubStochastic := by
    rw [Game.SubStochastic]
    decide +kernel
  let bound : Nat → Rat := fun v => [1 / 2, 1, 0, 1 / 2, 1 / 2].getD v 0
  have hb : Game.dither.Caps (.ofList 5 [1]) bound :=
    { nonneg := by decide +kernel
      one_le := fun v hv => by
        obtain rfl : v = 1 := by simpa using NodeSet.mem_of_mem_ofList hv
        decide +kernel
      even := by decide +kernel
      odd := by decide +kernel
      chance := by decide +kernel }
  obtain ⟨hmoments, hends⟩ := ValueIteration.solve_from_below Game.dither (.ofList 5 [1]) hc ht hw
  obtain ⟨k, result, hresult, -, -, hsolve⟩ := hends (1 / 100) (by decide +kernel)
  obtain ⟨o, ho, hvalues⟩ := hsolve ⟨1 / 100, 0, 501⟩ .none rfl (by decide +kernel)
  obtain ⟨hbelow, -⟩ := hmoments _ ⟨k, List.prefix_rfl⟩
  rw [← hresult, ← hvalues] at hbelow
  refine ⟨hc, ht, hw, o, ho, ?_, ?_, ?_, ?_, ?_⟩
  · exact hbelow.on_target 1 (by decide)
  · exact hbelow.unreachable 2 (by decide) (by decide +kernel)
  · exact hbelow.le_cap bound hb 0 (by decide)
  · exact hbelow.le_cap bound hb 3 (by decide)
  · exact hbelow.le_cap bound hb 4 (by decide)

end OmegaGames
