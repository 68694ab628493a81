import Mathlib.Data.Set.Card
import Mathlib.Data.Set.Finite.Lemmas
import Mathlib.Logic.Relation

/-!
# Components of finite graphs

A play on a finite graph ends in a part that it does not leave and in which it comes back to every
node: a bottom strongly connected component. From every node of a finite closed set such a component
is reachable.
-/
namespace OmegaGames

open Relation

/-- A set of nodes that no edge leaves and in which every node leads to every other one. -/
structure IsBottomComponent (step : Nat → Nat → Prop) (C : Set Nat) : Prop where
  nonempty : C.Nonempty
  closed : ∀ u ∈ C, ∀ v, step u v → v ∈ C
  connected : ∀ u ∈ C, ∀ v ∈ C, ReflTransGen step u v

def Inside (step : Nat → Nat → Prop) (C : Set Nat) (u v : Nat) : Prop := u ∈ C ∧ v ∈ C ∧ step u v

variable {step : Nat → Nat → Prop} {C : Set Nat}

theorem mem_of_reflTransGen (hc : ∀ u ∈ C, ∀ v, step u v → v ∈ C) {u v : Nat} (hu : u ∈ C)
    (h : ReflTransGen step u v) : v ∈ C := by
  induction h with
  | refl => exact hu
  | tail _ hab ih => exact hc _ ih _ hab

theorem reflTransGen_inside (hc : ∀ u ∈ C, ∀ v, step u v → v ∈ C) {u v : Nat} (hu : u ∈ C)
    (h : ReflTransGen step u v) : ReflTransGen (Inside step C) u v := by
  induction h with
  | refl => exact .refl
  | tail hua hab ih =>
    have ha := mem_of_reflTransGen hc hu hua
    exact ih.tail ⟨ha, hc _ ha _ hab, hab⟩

theorem reflTransGen_inside_mono {step' : Nat → Nat → Prop}
    (h : ∀ u ∈ C, ∀ v, step u v → step' u v) {u v : Nat} (huv : ReflTransGen (Inside step C) u v) :
    ReflTransGen (Inside step' C) u v :=
  ReflTransGen.mono (fun a b hab => ⟨hab.1, hab.2.1, h a hab.1 b hab.2.2⟩) _ _ huv

/-- Among the nodes reachable from `v`, one that reaches the fewest nodes lies in a bottom component. -/
theorem exists_isBottomComponent {S : Set Nat} (hf : S.Finite) (hc : ∀ u ∈ S, ∀ v, step u v → v ∈ S)
    {v : Nat} (hv : v ∈ S) :
    ∃ C, IsBottomComponent step C ∧ C ⊆ S ∧ ∃ u ∈ C, ReflTransGen step v u := by
  let reach : Nat → Set Nat := fun u => {w | ReflTransGen step u w}
  have hsub : ∀ u ∈ S, reach u ⊆ S := fun u hu w hw => mem_of_reflTransGen hc hu hw
  obtain ⟨u, hvu, hmin⟩ := Set.exists_min_image (reach v) (fun u => (reach u).ncard)
    (hf.subset (hsub v hv)) ⟨v, .refl⟩
  have hu : u ∈ S := hsub v hv hvu
  have hback : ∀ w ∈ reach u, ReflTransGen step w u := by
    intro w hw
    have hle : (reach u).ncard ≤ (reach w).ncard := hmin w (ReflTransGen.trans hvu hw)
    have hwu : reach w ⊆ reach u := fun x hx => ReflTransGen.trans hw hx
    have heq : reach w = reach u := Set.eq_of_subset_of_ncard_le hwu hle (hf.subset (hsub u hu))
    have hmem : u ∈ reach w := heq ▸ ReflTransGen.refl
    exact hmem
  refine ⟨reach u, ⟨⟨u, .refl⟩, ?_, ?_⟩, hsub u hu, u, .refl, hvu⟩
  · intro w hw x hx
    exact ReflTransGen.tail hw hx
  · intro w hw x hx
    exact (hback w hw).trans hx

namespace IsBottomComponent

/-- A bottom component is what any of its nodes reaches. -/
theorem subset_of_closed (h : IsBottomComponent step C) {A : Set Nat} {u : Nat} (hu : u ∈ C)
    (hA : u ∈ A) (hc : ∀ w ∈ A, ∀ v, step w v → v ∈ A) : C ⊆ A :=
  fun v hv => mem_of_reflTransGen hc hA (h.connected u hu v hv)

theorem connected_inside (h : IsBottomComponent step C) {u v : Nat} (hu : u ∈ C) (hv : v ∈ C) :
    ReflTransGen (Inside step C) u v :=
  reflTransGen_inside h.closed hu (h.connected u hu v hv)

end IsBottomComponent

/-- Nodes that lead to each other are connected by walks among themselves. -/
theorem reflTransGen_inside_of_mutual {u x y : Nat}
    (hx : ReflTransGen step u x) (hxy : ReflTransGen step x y) (hy : ReflTransGen step y u) :
    ReflTransGen (Inside step {w | ReflTransGen step u w ∧ ReflTransGen step w u}) x y := by
  induction hxy with
  | refl => exact .refl
  | tail hxa hab ih =>
    have hau := ReflTransGen.head hab hy
    have hua := hx.trans hxa
    exact (ih hau).tail ⟨⟨hua, hau⟩, ⟨hua.tail hab, hy⟩, hab⟩

end OmegaGames
