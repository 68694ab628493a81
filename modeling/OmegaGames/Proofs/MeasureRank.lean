import OmegaGames.Qualitative.Measure
import OmegaGames.Proofs.Edges
import Mathlib.Data.List.Forall2
import Mathlib.Data.Set.Card
import Mathlib.Tactic.Ring

/-!
# Measures as numbers

The counts of a measure are the digits of a number, the count of the smallest priority first: its rank.
Comparing measures is comparing ranks, and raising a measure at priority `p` rounds its rank down to a
multiple of what one count at `p` is worth and adds one such multiple if `p` is odd. The greatest
measure comes right after all counts.
-/
namespace OmegaGames

namespace Level

def volume : List Level → Nat
  | [] => 1
  | l :: ls => (l.bound + 1) * volume ls

/-- What one count at priority `p` is worth: the number of count vectors over the levels above. -/
def unit (p : Nat) : List Level → Nat
  | [] => 1
  | l :: ls => if p < l.priority then (l.bound + 1) * unit p ls else unit p ls

def Increasing (levels : List Level) : Prop := levels.Pairwise fun a b => a.priority < b.priority

theorem unit_pos (p : Nat) (levels : List Level) : 0 < unit p levels := by
  induction levels with
  | nil => exact Nat.one_pos
  | cons l ls ih =>
    simp only [unit]
    split
    · exact Nat.mul_pos (Nat.succ_pos _) ih
    · exact ih

theorem unit_eq_volume {p : Nat} {levels : List Level} (h : ∀ l ∈ levels, p < l.priority) :
    unit p levels = volume levels := by
  induction levels with
  | nil => rfl
  | cons l ls ih =>
    rw [unit, if_pos (h l List.mem_cons_self), ih fun l' hl' => h l' (List.mem_cons_of_mem l hl'),
      volume]

theorem unit_dvd_volume (p : Nat) (levels : List Level) : unit p levels ∣ volume levels := by
  induction levels with
  | nil => exact dvd_rfl
  | cons l ls ih =>
    simp only [unit, volume]
    split
    · exact Nat.mul_dvd_mul_left _ ih
    · exact Dvd.dvd.mul_left ih _

theorem unit_dvd_unit {p q : Nat} (hpq : p ≤ q) (levels : List Level) :
    unit q levels ∣ unit p levels := by
  induction levels with
  | nil => exact dvd_rfl
  | cons l ls ih =>
    simp only [unit]
    by_cases hq : q < l.priority
    · rw [if_pos hq, if_pos (by omega)]
      exact Nat.mul_dvd_mul_left _ ih
    · rw [if_neg hq]
      split
      · exact Dvd.dvd.mul_left ih _
      · exact ih

theorem Increasing.tail {l : Level} {ls : List Level} (h : Increasing (l :: ls)) : Increasing ls :=
  (List.pairwise_cons.mp h).2

/-- Above the first level the others are not worth anything at its priority. -/
theorem Increasing.unit_eq {l : Level} {ls : List Level} (h : Increasing (l :: ls)) {p : Nat}
    (hp : p ≤ l.priority) : unit p ls = volume ls :=
  unit_eq_volume fun l' hl' => by
    have hlt := (List.pairwise_cons.mp h).1 l' hl'
    omega

theorem Increasing.unit_cons {l : Level} {ls : List Level} (h : Increasing (l :: ls)) {p : Nat}
    (hp : p < l.priority) : unit p (l :: ls) = volume (l :: ls) := by
  rw [unit, if_pos hp, h.unit_eq (Nat.le_of_lt hp), volume]

end Level

namespace Measure

open Level

def Within (levels : List Level) (cs : List Nat) : Prop :=
  List.Forall₂ (fun l c => c ≤ l.bound) levels cs

/-- The number whose digits are the counts. -/
def value : List Level → List Nat → Nat
  | _ :: ls, c :: cs => c * volume ls + value ls cs
  | _, _ => 0

theorem value_lt_volume {levels : List Level} {cs : List Nat} (h : Within levels cs) :
    value levels cs < volume levels := by
  induction h with
  | nil => exact Nat.one_pos
  | @cons l c ls cs hc _ ih =>
    have hle : c * volume ls ≤ l.bound * volume ls := Nat.mul_le_mul_right _ hc
    simp only [value, volume, Nat.add_mul, Nat.one_mul]
    omega

/-- The first digit decides, and the rest if it is equal. -/
private theorem digit_lt {c d v x y : Nat} (hx : x < v) (hy : y < v) :
    c * v + x < d * v + y ↔ c < d ∨ c = d ∧ x < y := by
  rcases Nat.lt_trichotomy c d with hcd | rfl | hcd
  · have hle : (c + 1) * v ≤ d * v := Nat.mul_le_mul_right _ hcd
    rw [Nat.add_mul, Nat.one_mul] at hle
    omega
  · omega
  · have hle : (d + 1) * v ≤ c * v := Nat.mul_le_mul_right _ hcd
    rw [Nat.add_mul, Nat.one_mul] at hle
    omega

theorem lt_iff_value_lt {levels : List Level} {a b : List Nat} (ha : Within levels a)
    (hb : Within levels b) : a < b ↔ value levels a < value levels b := by
  induction ha generalizing b with
  | nil =>
    cases hb
    simp [value]
  | cons _ hcs ih =>
    cases hb with
    | cons _ hds =>
      rw [List.cons_lt_cons_iff, ih hds, value, value,
        digit_lt (value_lt_volume hcs) (value_lt_volume hds)]

theorem eq_of_value_eq {levels : List Level} {a b : List Nat} (ha : Within levels a)
    (hb : Within levels b) (h : value levels a = value levels b) : a = b := by
  induction ha generalizing b with
  | nil =>
    cases hb
    rfl
  | @cons _ c _ cs _ hcs ih =>
    cases hb with
    | @cons _ d _ ds _ hds =>
      have hlt := digit_lt (c := c) (d := d) (value_lt_volume hcs) (value_lt_volume hds)
      have hgt := digit_lt (c := d) (d := c) (value_lt_volume hds) (value_lt_volume hcs)
      simp only [value] at h
      have hcd : c = d := by omega
      have htail : cs = ds := ih hds (by omega)
      rw [hcd, htail]

theorem value_eq_zero (levels : List Level) {cs : List Nat} (h : ∀ c ∈ cs, c = 0) :
    value levels cs = 0 := by
  induction levels generalizing cs with
  | nil => simp [value]
  | cons l ls ih =>
    cases cs with
    | nil => simp [value]
    | cons c cs =>
      rw [value, h c List.mem_cons_self, ih fun d hd => h d (List.mem_cons_of_mem c hd), Nat.zero_mul]

theorem within_zeros {levels : List Level} {cs : List Nat} (h : Within levels cs) :
    Within levels (cs.map fun _ => 0) := by
  induction h with
  | nil => exact .nil
  | cons _ _ ih => exact .cons (Nat.zero_le _) ih

/-- Carrying the multiples of a divisor of the weight through the first digit. -/
private theorem div_digit {c v x b : Nat} (hb : 0 < b) (hv : b ∣ v) :
    (c * v + x) / b * b = c * v + x / b * b := by
  obtain ⟨k, rfl⟩ := hv
  rw [show c * (b * k) = b * (c * k) by ring, Nat.mul_add_div hb, Nat.add_mul]
  ring

/-- Forgetting the counts above `p` rounds the value down. -/
theorem value_truncate {levels : List Level} (hs : Increasing levels) (p : Nat) {cs : List Nat}
    (h : Within levels cs) :
    value levels (truncate p levels cs) = value levels cs / unit p levels * unit p levels := by
  induction h with
  | nil => simp [value]
  | @cons l c ls cs hc hcs ih =>
    have hrest := ih hs.tail
    by_cases hp : p < l.priority
    · have hlow : value ls (truncate p ls cs) = 0 := by
        rw [hrest, hs.unit_eq (Nat.le_of_lt hp), Nat.div_eq_of_lt (value_lt_volume hcs), Nat.zero_mul]
      have hlt : value (l :: ls) (c :: cs) < volume (l :: ls) := value_lt_volume (.cons hc hcs)
      rw [hs.unit_cons hp, Nat.div_eq_of_lt hlt]
      have hskip : ¬ l.priority ≤ p := by omega
      simpa [truncate, value, hskip] using hlow
    · have hkeep : l.priority ≤ p := by omega
      rw [unit, if_neg hp, value, div_digit (unit_pos p ls) (unit_dvd_volume p ls), ← hrest]
      simp [truncate, value, hkeep]

/-- The next counts at `p` are worth one unit more, rounded down; if there are none, that would be too
much for the levels. -/
theorem value_next? {levels : List Level} (hs : Increasing levels) (p : Nat) {cs : List Nat}
    (h : Within levels cs) :
    match next? p levels cs with
    | some cs' => Within levels cs' ∧
        value levels cs' = value levels cs / unit p levels * unit p levels + unit p levels
    | none => volume levels = value levels cs / unit p levels * unit p levels + unit p levels := by
  induction h with
  | nil => simp [next?, value, volume, unit]
  | @cons l c ls cs hc hcs ih =>
    have hrest := ih hs.tail
    by_cases hp : p < l.priority
    · have hlt : value (l :: ls) (c :: cs) < volume (l :: ls) := value_lt_volume (.cons hc hcs)
      rw [hs.unit_cons hp, Nat.div_eq_of_lt hlt]
      simp [next?, hp]
    · rw [unit, if_neg hp, value, div_digit (unit_pos p ls) (unit_dvd_volume p ls)]
      simp only [next?, if_neg hp]
      cases hn : next? p ls cs with
      | some cs' =>
        rw [hn] at hrest
        obtain ⟨hw, hv⟩ := hrest
        refine ⟨.cons hc hw, ?_⟩
        rw [value, hv, Nat.add_assoc]
      | none =>
        rw [hn] at hrest
        by_cases hlt : c < l.bound
        · simp only [if_pos hlt]
          refine ⟨.cons hlt (within_zeros hcs), ?_⟩
          rw [value, value_eq_zero ls (by simp), Nat.add_mul]
          omega
        · have hcb : c = l.bound := by omega
          simp only [if_neg hlt]
          rw [volume, Nat.add_mul, ← hcb]
          omega

/-! ## Ranks -/

def Fits (levels : List Level) : Measure → Prop
  | counts cs => Within levels cs
  | top => True

def rank (levels : List Level) : Measure → Nat
  | counts cs => value levels cs
  | top => volume levels

/-- What raising at priority `p` does to the rank. -/
def climb (levels : List Level) (p r : Nat) : Nat :=
  min (volume levels) ((r / unit p levels + p % 2) * unit p levels)

variable {levels : List Level}

theorem rank_le_volume {m : Measure} (h : m.Fits levels) : m.rank levels ≤ volume levels := by
  cases m with
  | counts cs => exact Nat.le_of_lt (value_lt_volume h)
  | top => exact le_refl _

theorem isTop_iff_rank {m : Measure} (h : m.Fits levels) :
    m.isTop = true ↔ m.rank levels = volume levels := by
  cases m with
  | counts cs =>
    have hlt := value_lt_volume h
    simp only [isTop, rank, Bool.false_eq_true, false_iff]
    omega
  | top => simp [isTop, rank]

theorem lt_iff_rank_lt {a b : Measure} (ha : a.Fits levels) (hb : b.Fits levels) :
    lt a b = true ↔ a.rank levels < b.rank levels := by
  cases a with
  | top =>
    have hle := rank_le_volume hb
    simp only [lt, Bool.false_eq_true, false_iff]
    exact Nat.not_lt.mpr hle
  | counts as =>
    cases b with
    | top => simpa [lt, rank] using value_lt_volume ha
    | counts bs => simpa [lt, rank] using lt_iff_value_lt ha hb

theorem eq_of_rank_eq {a b : Measure} (ha : a.Fits levels) (hb : b.Fits levels)
    (h : a.rank levels = b.rank levels) : a = b := by
  have htop : a.isTop = true ↔ b.isTop = true := by rw [isTop_iff_rank ha, isTop_iff_rank hb, h]
  cases a with
  | top =>
    cases b with
    | top => rfl
    | counts bs => simp [isTop] at htop
  | counts as =>
    cases b with
    | top => simp [isTop] at htop
    | counts bs => exact congrArg counts (eq_of_value_eq ha hb h)

theorem fits_zero (levels : List Level) : (zero levels).Fits levels := by
  induction levels with
  | nil => exact .nil
  | cons l ls ih => exact .cons (Nat.zero_le _) ih

@[simp] theorem rank_zero (levels : List Level) : (zero levels).rank levels = 0 :=
  value_eq_zero levels (by simp)

private theorem within_truncate (p : Nat) {cs : List Nat} (h : Within levels cs) :
    Within levels (truncate p levels cs) := by
  induction h with
  | nil => exact .nil
  | cons hc _ ih =>
    refine .cons ?_ ih
    dsimp only
    split
    · exact hc
    · exact Nat.zero_le _

theorem fits_raise (hs : Increasing levels) (p : Nat) {m : Measure} (h : m.Fits levels) :
    (raise levels p m).Fits levels := by
  cases m with
  | top => exact h
  | counts cs =>
    simp only [raise]
    split
    · have hnext := value_next? hs p h
      split
      next cs' heq =>
        rw [heq] at hnext
        exact hnext.1
      next => exact trivial
    · exact within_truncate p h

theorem rank_raise (hs : Increasing levels) (p : Nat) {m : Measure} (h : m.Fits levels) :
    (raise levels p m).rank levels = climb levels p (m.rank levels) := by
  cases m with
  | top =>
    have hdiv : volume levels / unit p levels * unit p levels = volume levels :=
      Nat.div_mul_cancel (unit_dvd_volume p levels)
    simp only [raise, rank, climb, Nat.add_mul, hdiv]
    omega
  | counts cs =>
    simp only [raise]
    by_cases hp : p % 2 = 1
    · have hnext := value_next? hs p h
      rw [if_pos hp]
      split
      next cs' heq =>
        rw [heq] at hnext
        have hlt := value_lt_volume hnext.1
        have hv := hnext.2
        simp only [rank, climb, hp, Nat.add_mul, Nat.one_mul]
        omega
      next heq =>
        rw [heq] at hnext
        simp only [rank, climb, hp, Nat.add_mul, Nat.one_mul, ← hnext, Nat.min_self]
    · have hp0 : p % 2 = 0 := by omega
      have hlt := value_lt_volume (within_truncate p h)
      rw [value_truncate hs p h] at hlt
      rw [if_neg hp, rank, value_truncate hs p h]
      simp only [rank, climb, hp0, Nat.add_zero]
      omega

/-! ## Climbing -/

theorem climb_mono {p r s : Nat} (h : r ≤ s) : climb levels p r ≤ climb levels p s := by
  have hdiv : r / unit p levels ≤ s / unit p levels := Nat.div_le_div_right h
  exact min_le_min_left _ (Nat.mul_le_mul_right _ (Nat.add_le_add_right hdiv _))

/-- Nothing comes down from the greatest measure. -/
theorem lt_volume_of_climb {p r : Nat} (h : climb levels p r < volume levels) : r < volume levels := by
  by_contra hr
  have hle : volume levels / unit p levels ≤ r / unit p levels := Nat.div_le_div_right (by omega)
  have hmul : volume levels ≤ (r / unit p levels + p % 2) * unit p levels :=
    calc volume levels
        = volume levels / unit p levels * unit p levels :=
          (Nat.div_mul_cancel (unit_dvd_volume p levels)).symm
      _ ≤ (r / unit p levels + p % 2) * unit p levels := Nat.mul_le_mul_right _ (by omega)
  simp only [climb] at h
  omega

private theorem div_add_le_of_climb_le {p r s : Nat} (h : climb levels p r ≤ s)
    (hs : s < volume levels) : r / unit p levels + p % 2 ≤ s / unit p levels := by
  rw [Nat.le_div_iff_mul_le (unit_pos p levels)]
  simp only [climb] at h
  omega

/-- Above `q`, climbing does not fall below a multiple of what `q` is worth. -/
theorem div_le_of_climb_le {p q r s : Nat} (hqp : q ≤ p) (h : climb levels p r ≤ s)
    (hs : s < volume levels) : r / unit q levels ≤ s / unit q levels := by
  obtain ⟨k, hk⟩ := unit_dvd_unit hqp levels
  rw [hk, ← Nat.div_div_eq_div_mul, ← Nat.div_div_eq_div_mul]
  have hle := div_add_le_of_climb_le h hs
  exact Nat.div_le_div_right (by omega)

theorem div_lt_of_climb_le {p r s : Nat} (hp : p % 2 = 1) (h : climb levels p r ≤ s)
    (hs : s < volume levels) : r / unit p levels < s / unit p levels := by
  have hle := div_add_le_of_climb_le h hs
  omega

/-! ## Counts given level by level -/

theorem within_map {f : Level → Nat} (h : ∀ l ∈ levels, f l ≤ l.bound) :
    Within levels (levels.map f) := by
  induction levels with
  | nil => exact .nil
  | cons l ls ih =>
    exact .cons (h l List.mem_cons_self) (ih fun l' hl' => h l' (List.mem_cons_of_mem l hl'))

private theorem value_map_le {f f' : Level → Nat} (h : ∀ l ∈ levels, f l ≤ f' l) :
    value levels (levels.map f) ≤ value levels (levels.map f') := by
  induction levels with
  | nil => exact le_refl _
  | cons l ls ih =>
    have hrest := ih fun l' hl' => h l' (List.mem_cons_of_mem l hl')
    have hfirst := Nat.mul_le_mul_right (volume ls) (h l List.mem_cons_self)
    simp only [List.map_cons, value]
    omega

private theorem value_map_add_unit_le (hs : Increasing levels) {f f' : Level → Nat}
    (h : ∀ l ∈ levels, f l ≤ f' l) {k : Level} (hk : k ∈ levels) (hlt : f k < f' k) :
    value levels (levels.map f) + unit k.priority levels ≤ value levels (levels.map f') := by
  induction levels with
  | nil => exact absurd hk List.not_mem_nil
  | cons l ls ih =>
    have hls : ∀ l' ∈ ls, f l' ≤ f' l' := fun l' hl' => h l' (List.mem_cons_of_mem l hl')
    simp only [List.map_cons, value]
    rcases List.mem_cons.mp hk with rfl | hk
    · have hrest := value_map_le hls
      have hfirst := Nat.mul_le_mul_right (volume ls) hlt
      rw [unit, if_neg (lt_irrefl _), hs.unit_eq le_rfl]
      rw [Nat.succ_mul] at hfirst
      omega
    · have hrest := ih hs.tail hls hk
      have hfirst := Nat.mul_le_mul_right (volume ls) (h l List.mem_cons_self)
      have hlk := (List.pairwise_cons.mp hs).1 k hk
      rw [unit, if_neg (by omega)]
      omega

/-- Climbing at `p` stays below counts that are not smaller up to `p`, and larger at an odd `p`. -/
theorem climb_le_value (hs : Increasing levels) {p : Nat} {f f' : Level → Nat}
    (hf : ∀ l ∈ levels, f l ≤ l.bound) (hle : ∀ l ∈ levels, l.priority ≤ p → f l ≤ f' l)
    (hodd : p % 2 = 1 → ∃ l ∈ levels, l.priority = p ∧ f l < f' l) :
    climb levels p (value levels (levels.map f)) ≤ value levels (levels.map f') := by
  let cut : Level → Nat := fun l => if l.priority ≤ p then f l else 0
  have hcut : ∀ l ∈ levels, cut l ≤ f' l := by
    intro l hl
    by_cases hp : l.priority ≤ p
    · simpa [cut, hp] using hle l hl hp
    · simp [cut, hp]
  have hround : value levels (levels.map f) / unit p levels * unit p levels =
      value levels (levels.map cut) := by
    rw [← value_truncate hs p (within_map hf), truncate, List.zipWith_map_right,
      List.zipWith_self]
  have hsum : (value levels (levels.map f) / unit p levels + p % 2) * unit p levels ≤
      value levels (levels.map f') := by
    rw [Nat.add_mul, hround]
    rcases Nat.mod_two_eq_zero_or_one p with hp | hp
    · simpa [hp] using value_map_le hcut
    · obtain ⟨l, hl, rfl, hlt⟩ := hodd hp
      have hk : cut l < f' l := by simpa [cut] using hlt
      simpa [hp] using value_map_add_unit_le hs hcut hl hk
  exact (min_le_right _ _).trans hsum

end Measure

/-! ## The levels of a game -/

namespace Level

/-- The bounds of all levels with a priority together. -/
private def boundAt (q : Nat) : List Level → Nat
  | [] => 0
  | l :: ls => (if l.priority = q then l.bound else 0) + boundAt q ls

private theorem boundAt_enter (q p : Nat) (levels : List Level) :
    boundAt q (enter p levels) = boundAt q levels + if p = q then 1 else 0 := by
  induction levels with
  | nil => simp [enter, boundAt]
  | cons l ls ih =>
    simp only [enter]
    split
    · simp only [boundAt]
      omega
    · split
      next heq =>
        subst heq
        simp only [boundAt]
        split <;> omega
      next =>
        simp only [boundAt, ih]
        omega

private theorem boundAt_foldr (q : Nat) (ps : List Nat) :
    boundAt q (ps.foldr enter []) = ps.count q := by
  induction ps with
  | nil => rfl
  | cons p ps ih => rw [List.foldr_cons, boundAt_enter, ih, List.count_cons]; simp

private theorem boundAt_eq_zero {q : Nat} {levels : List Level} (h : ∀ l ∈ levels, l.priority ≠ q) :
    boundAt q levels = 0 := by
  induction levels with
  | nil => rfl
  | cons l ls ih =>
    rw [boundAt, if_neg (h l List.mem_cons_self), ih fun k hk => h k (List.mem_cons_of_mem l hk)]

private theorem boundAt_priority {levels : List Level} (hs : Increasing levels) {l : Level}
    (hl : l ∈ levels) : boundAt l.priority levels = l.bound := by
  induction levels with
  | nil => exact absurd hl List.not_mem_nil
  | cons k ls ih =>
    have hlt := (List.pairwise_cons.mp hs).1
    rcases List.mem_cons.mp hl with rfl | hl
    · rw [boundAt, if_pos rfl, boundAt_eq_zero fun k hk => (hlt k hk).ne', Nat.add_zero]
    · rw [boundAt, if_neg (hlt l hl).ne, ih hs.tail hl, Nat.zero_add]

private theorem priority_of_mem_enter {p : Nat} {levels : List Level} {l : Level}
    (h : l ∈ enter p levels) : l.priority = p ∨ ∃ k ∈ levels, k.priority = l.priority := by
  induction levels with
  | nil => exact Or.inl (by simp_all [enter])
  | cons k ls ih =>
    simp only [enter] at h
    split at h
    · rcases List.mem_cons.mp h with rfl | h
      · exact Or.inl rfl
      · exact Or.inr ⟨l, h, rfl⟩
    · split at h
      · rcases List.mem_cons.mp h with rfl | h
        · exact Or.inl rfl
        · exact Or.inr ⟨l, List.mem_cons_of_mem k h, rfl⟩
      · rcases List.mem_cons.mp h with rfl | h
        · exact Or.inr ⟨l, List.mem_cons_self, rfl⟩
        · rcases ih h with hp | ⟨k', hk', hp⟩
          · exact Or.inl hp
          · exact Or.inr ⟨k', List.mem_cons_of_mem k hk', hp⟩

private theorem increasing_enter (p : Nat) {levels : List Level} (hs : Increasing levels) :
    Increasing (enter p levels) := by
  induction levels with
  | nil => exact List.pairwise_singleton _ _
  | cons l ls ih =>
    have hlt := (List.pairwise_cons.mp hs).1
    simp only [enter]
    split
    next hp =>
      refine List.pairwise_cons.mpr ⟨fun k hk => ?_, hs⟩
      rcases List.mem_cons.mp hk with rfl | hk
      · exact hp
      · exact hp.trans (hlt k hk)
    next hp =>
      split
      next heq => exact List.pairwise_cons.mpr ⟨fun k hk => heq ▸ hlt k hk, hs.tail⟩
      next hne =>
        refine List.pairwise_cons.mpr ⟨fun k hk => ?_, ih hs.tail⟩
        rcases priority_of_mem_enter hk with hkp | ⟨k', hk', hkp⟩
        · omega
        · exact hkp ▸ hlt k' hk'

private theorem increasing_foldr (ps : List Nat) : Increasing (ps.foldr enter []) := by
  induction ps with
  | nil => exact List.Pairwise.nil
  | cons p ps ih => exact increasing_enter p ih

variable {W : Type} (g : Game W)

theorem increasing_ofGame : Increasing (ofGame g) := increasing_foldr _

private theorem boundAt_ofGame {q : Nat} (hq : q % 2 = 1) :
    boundAt q (ofGame g) = {v | v < g.size ∧ g.priority v = q}.ncard := by
  have hset : {v | v < g.size ∧ g.priority v = q} =
      (((List.range g.size).filter (g.priority · == q)).toFinset : Set Nat) := by
    ext v
    simp
  rw [ofGame, boundAt_foldr, List.count_filter (by simpa using hq), g.map_priority_nodes, hset,
    Set.ncard_coe_finset, List.toFinset_card_of_nodup (List.nodup_range.filter _), List.count,
    List.countP_map, List.countP_eq_length_filter]
  simp [Function.comp_def]

theorem odd_of_mem_ofGame {l : Level} (hl : l ∈ ofGame g) : l.priority % 2 = 1 := by
  have hmem : ∀ ps : List Nat, ∀ k ∈ ps.foldr enter [], k.priority ∈ ps := by
    intro ps
    induction ps with
    | nil => simp
    | cons p ps ih =>
      intro k hk
      rcases priority_of_mem_enter hk with rfl | ⟨k', hk', hp⟩
      · exact List.mem_cons_self
      · exact hp ▸ List.mem_cons_of_mem p (ih k' hk')
  have hodd := hmem _ l hl
  simpa using (List.mem_filter.mp hodd).2

theorem bound_ofGame {l : Level} (hl : l ∈ ofGame g) :
    l.bound = {v | v < g.size ∧ g.priority v = l.priority}.ncard := by
  rw [← boundAt_ofGame g (odd_of_mem_ofGame g hl), boundAt_priority (increasing_ofGame g) hl]

theorem exists_mem_ofGame {v : Nat} (hv : v < g.size) (hp : g.priority v % 2 = 1) :
    ∃ l ∈ ofGame g, l.priority = g.priority v := by
  by_contra hnone
  have hzero : boundAt (g.priority v) (ofGame g) = 0 :=
    boundAt_eq_zero fun l hl heq => hnone ⟨l, hl, heq⟩
  have hfin : {w | w < g.size ∧ g.priority w = g.priority v}.Finite :=
    (Set.finite_lt_nat g.size).subset fun w hw => hw.1
  rw [boundAt_ofGame g hp, Set.ncard_eq_zero hfin] at hzero
  exact Set.eq_empty_iff_forall_notMem.mp hzero v ⟨hv, rfl⟩

end Level
end OmegaGames
