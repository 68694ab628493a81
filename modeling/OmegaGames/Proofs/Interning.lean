import OmegaGames.Interner
import Mathlib.Data.List.Nodup

/-!
# Numbers keep their meaning

Entering a value into an interning table adds it at the end unless it is there already. So numbers
given out before stand for the same values afterwards, and no value has two numbers.
-/
namespace OmegaGames
namespace Interner

variable {α : Type}

/-- The values of one table stand in another one under the same numbers. -/
def Extends (t t' : Interner α) : Prop := t.values.toList <+: t'.values.toList

def Distinct (t : Interner α) : Prop := t.values.toList.Nodup

variable {t t' t'' : Interner α} {a b : α} {i : Nat}

theorem Extends.refl (t : Interner α) : t.Extends t := List.prefix_rfl

theorem Extends.trans (h : t.Extends t') (h' : t'.Extends t'') : t.Extends t'' := List.IsPrefix.trans h h'

theorem get?_eq : t.get? i = t.values.toList[i]? := Array.getElem?_toList.symm

theorem mem_of_get? (h : t.get? i = some a) : a ∈ t.values.toList := List.mem_of_getElem? (get?_eq ▸ h)

theorem Extends.get? (h : t.Extends t') (hi : t.get? i = some a) : t'.get? i = some a := by
  rw [get?_eq] at hi ⊢
  obtain ⟨hlt, ha⟩ := List.getElem?_eq_some_iff.mp hi
  rw [List.prefix_iff_getElem?.mp h i hlt, ha]

theorem Extends.eq_of_size_le (h : t.Extends t') (hsize : t'.size ≤ t.size) : t' = t := by
  have hlist : t.values.toList = t'.values.toList :=
    List.IsPrefix.eq_of_length_le h (by simpa [size] using hsize)
  cases t
  cases t'
  simpa using (Array.toList_inj.mp hlist).symm

theorem Distinct.get?_inj (h : t.Distinct) {j : Nat} (hi : t.get? i = some a) (hj : t.get? j = some a) :
    i = j := by
  rw [get?_eq] at hi hj
  exact (List.getElem?_inj (List.getElem?_eq_some_iff.mp hi).1 h).mp (hi.trans hj.symm)

variable [DecidableEq α]

theorem find?_eq_none_iff : t.find? a = none ↔ a ∉ t.values.toList := by
  simp [find?, Array.idxOf?_eq_none_iff]

theorem get?_of_find? (h : t.find? a = some i) : t.get? i = some a := by
  have hlist : t.values.toList.idxOf? a = some i := by rw [← List.idxOf?_toArray]; exact h
  obtain ⟨hi, ha, -⟩ := List.idxOf?_eq_some_iff.mp hlist
  rw [get?_eq, List.getElem?_eq_getElem hi, ha]

theorem Distinct.find?_of_get? (h : t.Distinct) (hi : t.get? i = some a) : t.find? a = some i := by
  cases hfind : t.find? a with
  | none => exact absurd (mem_of_get? hi) (find?_eq_none_iff.mp hfind)
  | some j => rw [h.get?_inj (get?_of_find? hfind) hi]

/-- A value that is there keeps its number, another one gets the next. -/
theorem intern_cases (t : Interner α) (a : α) :
    (∃ i, t.get? i = some a ∧ t.intern a = (t, i, false)) ∨
      a ∉ t.values.toList ∧ t.intern a = (⟨t.values.push a⟩, t.size, true) := by
  cases h : t.find? a with
  | some i => exact Or.inl ⟨i, get?_of_find? h, by simp [intern, h]⟩
  | none => exact Or.inr ⟨find?_eq_none_iff.mp h, by simp [intern, h]⟩

theorem extends_intern (t : Interner α) (a : α) : t.Extends (t.intern a).1 := by
  rcases t.intern_cases a with ⟨i, -, h⟩ | ⟨-, h⟩
  · rw [h]
    exact .refl t
  · rw [h]
    exact ⟨[a], by simp⟩

theorem get?_intern (t : Interner α) (a : α) : (t.intern a).1.get? (t.intern a).2.1 = some a := by
  rcases t.intern_cases a with ⟨i, hi, h⟩ | ⟨-, h⟩
  · rw [h]
    exact hi
  · rw [h]
    simp [get?, size]

theorem mem_intern : b ∈ (t.intern a).1.values.toList ↔ b ∈ t.values.toList ∨ b = a := by
  rcases t.intern_cases a with ⟨i, hi, h⟩ | ⟨-, h⟩
  · rw [h]
    constructor
    · exact Or.inl
    · rintro (hb | rfl)
      · exact hb
      · exact mem_of_get? hi
  · rw [h]
    simp

theorem Distinct.intern (h : t.Distinct) (a : α) : (t.intern a).1.Distinct := by
  rcases t.intern_cases a with ⟨i, -, heq⟩ | ⟨ha, heq⟩
  · rw [heq]
    exact h
  · rw [heq]
    simpa [Distinct] using List.Nodup.concat ha h

end Interner

end OmegaGames
