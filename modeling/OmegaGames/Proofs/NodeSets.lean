import OmegaGames.NodeSet
import Mathlib.Data.List.Perm.Subperm
import Mathlib.Data.Set.Basic
import Mathlib.Tactic.Tauto

/-!
# Node sets as sets

The view of a node set as a set of numbers, equality by members, and the number of members as a
measure: a proper subset is smaller, and no set is larger than its universe.
-/
namespace OmegaGames
namespace NodeSet

def toSet (s : NodeSet) : Set Nat := {v | v ∈ s}

@[simp] theorem mem_toSet (s : NodeSet) (v : Nat) : v ∈ s.toSet ↔ s.contains v = true := Iff.rfl

theorem lt_range {s : NodeSet} {v : Nat} (h : v ∈ s) : v < s.range := contains_lt h

theorem ext_mem {s t : NodeSet} (hr : s.range = t.range) (h : ∀ v, v ∈ s ↔ v ∈ t) : s = t := by
  obtain ⟨a⟩ := s
  obtain ⟨b⟩ := t
  congr 1
  refine Array.ext hr fun i hi hj => ?_
  have hc : (⟨a⟩ : NodeSet).contains i = (⟨b⟩ : NodeSet).contains i := Bool.eq_iff_iff.mpr (h i)
  simpa [contains, Array.getD, hi, hj] using hc

/-- Only nodes of the common universe have to be compared. -/
theorem ext_range {s t : NodeSet} (hr : s.range = t.range) (h : ∀ v < s.range, v ∈ s ↔ v ∈ t) : s = t := by
  refine ext_mem hr fun v => ⟨fun hv => (h v (lt_range hv)).mp hv, fun hv => (h v ?_).mpr hv⟩
  exact hr ▸ lt_range hv

theorem mem_inter {s t : NodeSet} {v : Nat} : v ∈ s.inter t ↔ v ∈ s ∧ v ∈ t := by simp [inter]

theorem mem_diff {s t : NodeSet} {v : Nat} : v ∈ s.diff t ↔ v ∈ s ∧ v ∉ t := by simp

theorem mem_filter {s : NodeSet} {p : Nat → Bool} {v : Nat} : v ∈ s.filter p ↔ v ∈ s ∧ p v = true := by
  simp

theorem mem_insert {s : NodeSet} {u : Nat} (hu : u < s.range) {v : Nat} :
    v ∈ s.insert u ↔ v ∈ s ∨ v = u := by
  simp only [mem_iff, contains_insert, Bool.or_eq_true, Bool.and_eq_true, decide_eq_true_eq]
  constructor
  · rintro (hv | ⟨rfl, -⟩)
    · exact Or.inl hv
    · exact Or.inr rfl
  · rintro (hv | rfl)
    · exact Or.inl hv
    · exact Or.inr ⟨rfl, hu⟩

@[simp] theorem contains_erase (s : NodeSet) (u v : Nat) :
    (s.erase u).contains v = (s.contains v && decide (u ≠ v)) := by
  by_cases h : v < s.bits.size
  · by_cases hu : u = v
    · subst hu; simp [erase, contains, Array.getD, h]
    · simp [erase, contains, Array.getD, h, hu]
  · simp [erase, contains, Array.getD, h]

@[simp] theorem range_inter (s t : NodeSet) : (s.inter t).range = s.range := by simp [inter]

theorem not_mem_empty (n v : Nat) : v ∉ empty n := by simp

@[simp] theorem toSet_empty (n : Nat) : (empty n).toSet = ∅ :=
  Set.eq_empty_of_forall_notMem (not_mem_empty n)

theorem mem_full {n v : Nat} : v ∈ full n ↔ v < n := by simp

theorem mem_union {s t : NodeSet} (hr : s.range = t.range) {v : Nat} :
    v ∈ s.union t ↔ v ∈ s ∨ v ∈ t := by
  simp only [mem_iff, contains_union, Bool.and_eq_true, decide_eq_true_eq, Bool.or_eq_true,
    and_iff_right_iff_imp]
  rintro (h | h)
  · exact contains_lt h
  · exact hr ▸ contains_lt h

theorem isEmpty_iff (s : NodeSet) : s.isEmpty = true ↔ ∀ v, v ∉ s := by
  rw [isEmpty, List.isEmpty_iff, List.eq_nil_iff_forall_not_mem]
  simp only [mem_toList, mem_iff]

theorem exists_mem_of_not_isEmpty {s : NodeSet} (h : ¬s.isEmpty = true) : ∃ v, v ∈ s := by
  by_contra hn
  exact h ((isEmpty_iff s).mpr fun v hv => hn ⟨v, hv⟩)

/-! ## Listing the members -/

@[simp] theorem range_ofList (n : Nat) (vs : List Nat) : (ofList n vs).range = n :=
  List.foldlRecOn (motive := fun s : NodeSet => s.range = n) _ _ (range_empty n) fun s hs v _ => by
    rw [range_insert, hs]

theorem mem_ofList {n : Nat} {vs : List Nat} {v : Nat} (hv : v < n) (h : v ∈ vs) : v ∈ ofList n vs := by
  have hfold : ∀ (vs : List Nat) (s : NodeSet), s.range = n → v ∈ s ∨ v ∈ vs → v ∈ vs.foldl insert s := by
    intro vs
    induction vs with
    | nil => simp
    | cons u us ih =>
      intro s hs hmem
      apply ih _ (by rw [range_insert, hs])
      rw [List.mem_cons] at hmem
      by_cases hu : u < s.range
      · rw [mem_insert hu]
        tauto
      · rcases hmem with hmem | rfl | hmem
        · exact Or.inl (by simpa using Or.inl hmem)
        · omega
        · exact Or.inr hmem
  exact hfold vs (empty n) (range_empty n) (Or.inr h)

theorem mem_of_mem_ofList {n : Nat} {vs : List Nat} {v : Nat} (h : v ∈ ofList n vs) : v ∈ vs := by
  refine List.foldlRecOn (motive := fun s : NodeSet => v ∈ s → v ∈ vs) _ _
    (fun h => absurd h (not_mem_empty n v)) (fun s hs u hu hv => ?_) h
  rw [mem_iff, contains_insert, Bool.or_eq_true, Bool.and_eq_true, decide_eq_true_eq] at hv
  rcases hv with hv | ⟨rfl, -⟩
  · exact hs hv
  · exact hu

theorem toList_full (n : Nat) : (full n).toList = List.range n := by
  rw [toList, range_full, List.filter_eq_self]
  intro v hv
  simpa using hv

theorem getElem?_toList_full {n v : Nat} (hv : v < n) : (full n).toList[v]? = some v := by
  rw [toList_full, List.getElem?_range hv]

/-! ## Number of members -/

theorem nodup_toList (s : NodeSet) : s.toList.Nodup := List.nodup_range.filter _

theorem size_lt_of_subset {s t : NodeSet} (h : ∀ v ∈ s, v ∈ t) {v : Nat} (ht : v ∈ t) (hs : v ∉ s) :
    s.size < t.size := by
  have hsub : v :: s.toList ⊆ t.toList := by
    intro w hw
    rcases List.mem_cons.mp hw with rfl | hw
    · exact (mem_toList t w).mpr ht
    · exact (mem_toList t w).mpr (h w ((mem_toList s w).mp hw))
  have hnodup : (v :: s.toList).Nodup :=
    List.nodup_cons.mpr ⟨fun hv => hs ((mem_toList s v).mp hv), s.nodup_toList⟩
  have hle := (hnodup.subperm hsub).length_le
  rw [List.length_cons] at hle
  exact hle

theorem size_le_range (s : NodeSet) : s.size ≤ s.range := by
  have hle := List.length_filter_le s.contains (List.range s.range)
  rwa [List.length_range] at hle

theorem size_full_lt (n : Nat) : (full n).size < n + 1 := by
  have hle := (full n).size_le_range
  rw [range_full] at hle
  omega

theorem not_mem_of_size_eq_zero {s : NodeSet} (h : s.size = 0) (v : Nat) : v ∉ s := by
  intro hv
  have hmem := (mem_toList s v).mpr hv
  rw [List.length_eq_zero_iff.mp h] at hmem
  exact List.not_mem_nil hmem

end NodeSet
end OmegaGames
