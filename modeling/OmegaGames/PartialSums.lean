/-!
# Partial sums

The sums of the first entries of a list: of none of them, of one, of two, up to all. Where cells are laid
end to end in groups of the listed sizes, each group begins at one sum and ends before the next, and cells
of different groups never share a place.
-/
namespace OmegaGames

/-- Goes on from the last of some sums. -/
def appendSums (sums : Array Nat) (sizes : List Nat) : Array Nat :=
  sizes.foldl (fun sums n => sums.push (sums.back?.getD 0 + n)) sums

def partialSums (sizes : List Nat) : Array Nat := appendSums #[0] sizes

def groupStart (sizes : List Nat) (v : Nat) : Nat := (partialSums sizes).getD v 0

section Append

theorem size_appendSums (sums : Array Nat) (sizes : List Nat) :
    (appendSums sums sizes).size = sums.size + sizes.length := by
  induction sizes generalizing sums with
  | nil => rfl
  | cons n sizes ih =>
    refine (ih (sums.push _)).trans ?_
    rw [Array.size_push, List.length_cons]
    omega

theorem getElem?_appendSums_of_lt {sums : Array Nat} (sizes : List Nat) {v : Nat} (hv : v < sums.size) :
    (appendSums sums sizes)[v]? = sums[v]? := by
  induction sizes generalizing sums with
  | nil => rfl
  | cons n sizes ih =>
    refine (@ih (sums.push _) (by rw [Array.size_push]; omega)).trans ?_
    rw [Array.getElem?_push_lt hv, Array.getElem?_eq_getElem hv]

/-- Each further sum adds one entry to the sum before it. -/
theorem getD_appendSums_succ {sums : Array Nat} {sizes : List Nat} {k v n : Nat} (hk : sums.size = k + 1)
    (hn : sizes[v]? = some n) :
    (appendSums sums sizes).getD (k + v + 1) 0 = (appendSums sums sizes).getD (k + v) 0 + n := by
  induction sizes generalizing sums k v with
  | nil => cases hn
  | cons m sizes ih =>
    rw [appendSums, List.foldl_cons, ← appendSums]
    have hsize : (sums.push (sums.back?.getD 0 + m)).size = k + 1 + 1 := by rw [Array.size_push, hk]
    cases v with
    | zero =>
      obtain rfl : m = n := Option.some.inj hn
      have hlast : (sums.push (sums.back?.getD 0 + m))[k + 1]? = some (sums.back?.getD 0 + m) := by
        rw [← hk, Array.getElem?_push_size]
      have hback : (sums.push (sums.back?.getD 0 + m))[k]? = sums.back? := by
        rw [Array.getElem?_push_lt (by omega), ← Array.getElem?_eq_getElem, Array.back?, hk,
          Nat.add_sub_cancel]
      change (appendSums _ sizes).getD (k + 1) 0 = (appendSums _ sizes).getD k 0 + m
      rw [Array.getD_eq_getD_getElem?, Array.getD_eq_getD_getElem?,
        getElem?_appendSums_of_lt sizes (by omega), getElem?_appendSums_of_lt sizes (by omega), hlast, hback]
      rfl
    | succ v =>
      have hstep := ih hsize hn
      rwa [Nat.add_right_comm k 1 v] at hstep

end Append

section Groups

variable {sizes : List Nat}

theorem size_partialSums (sizes : List Nat) : (partialSums sizes).size = sizes.length + 1 := by
  rw [partialSums, size_appendSums]
  exact Nat.add_comm 1 _

theorem getElem?_partialSums {v : Nat} (hv : v ≤ sizes.length) :
    (partialSums sizes)[v]? = some (groupStart sizes v) := by
  have hlt : v < (partialSums sizes).size := by rw [size_partialSums]; omega
  rw [groupStart, Array.getD_eq_getD_getElem?, Array.getElem?_eq_getElem hlt, Option.getD_some]

/-- The last sum is the number of all cells. -/
theorem back?_partialSums (sizes : List Nat) :
    (partialSums sizes).back? = some (groupStart sizes sizes.length) := by
  rw [Array.back?, size_partialSums, Nat.add_sub_cancel]
  exact getElem?_partialSums (Nat.le_refl _)

theorem groupStart_zero (sizes : List Nat) : groupStart sizes 0 = 0 := by
  have hzero : (partialSums sizes)[0]? = some 0 := getElem?_appendSums_of_lt sizes (Nat.zero_lt_one)
  rw [groupStart, Array.getD_eq_getD_getElem?, hzero, Option.getD_some]

theorem groupStart_succ {v n : Nat} (hn : sizes[v]? = some n) :
    groupStart sizes (v + 1) = groupStart sizes v + n := by
  have hstep := @getD_appendSums_succ #[0] sizes 0 v n rfl hn
  rwa [Nat.zero_add] at hstep

theorem groupStart_mono {u v : Nat} (huv : u ≤ v) (hv : v ≤ sizes.length) :
    groupStart sizes u ≤ groupStart sizes v := by
  induction huv with
  | refl => exact Nat.le_refl _
  | @step v _ ih =>
    have hle := ih (Nat.le_of_lt hv)
    have hstep := groupStart_succ (List.getElem?_eq_getElem (l := sizes) (i := v) hv)
    rw [Nat.succ_eq_add_one, hstep]
    omega

/-- A cell stands before the end of its group and so before all later groups. -/
theorem groupStart_add_lt {u v i n : Nat} (hu : sizes[u]? = some n) (hi : i < n) (huv : u < v)
    (hv : v ≤ sizes.length) : groupStart sizes u + i < groupStart sizes v := by
  have hstep := groupStart_succ hu
  have hle : groupStart sizes (u + 1) ≤ groupStart sizes v := groupStart_mono huv hv
  omega

/-- A place belongs to one cell only. -/
theorem eq_of_groupStart_add_eq {u v i j m n : Nat} (hu : sizes[u]? = some m) (hi : i < m)
    (hv : sizes[v]? = some n) (hj : j < n) (h : groupStart sizes u + i = groupStart sizes v + j) :
    u = v ∧ i = j := by
  have hul := (List.getElem?_eq_some_iff.mp hu).1
  have hvl := (List.getElem?_eq_some_iff.mp hv).1
  rcases Nat.lt_trichotomy u v with huv | rfl | huv
  · have hlt := groupStart_add_lt hu hi huv (by omega)
    omega
  · exact ⟨rfl, by omega⟩
  · have hlt := groupStart_add_lt hv hj huv (by omega)
    omega

end Groups

end OmegaGames
