import OmegaGames.Product.Graph
import OmegaGames.Proofs.Interning

/-!
# Product states in machine words

A product numbers machine words and not product states. A word stands for one product state, and the product
states that words stand for are those both of whose halves fit. So the nodes of a product can be read as
product states, and its numbers keep their meaning as those of the words do.
-/
namespace OmegaGames

namespace ProductState

variable {s : ProductState} {w : UInt64}

theorem halfLimit_eq : halfLimit = 4294967296 := rfl

def fits (s : ProductState) : Bool := s.model < halfLimit && s.automaton < halfLimit

theorem fits_iff : s.fits = true ↔ s.model < halfLimit ∧ s.automaton < halfLimit := by
  simp [fits]

/-! ## Packing -/

theorem half_of_lt {n : Nat} (h : n < halfLimit) : half n = .ok (.ofNat n) := if_pos h

theorem half_of_le {n : Nat} (h : halfLimit ≤ n) : half n = .error (.insufficientStates halfLimit) :=
  if_neg (Nat.not_lt.mpr h)

theorem pack_of_fits (h : s.fits = true) :
    s.pack = .ok (UInt64.ofNat s.model <<< halfBits ||| UInt64.ofNat s.automaton) := by
  obtain ⟨hm, ha⟩ := fits_iff.mp h
  rw [pack, half_of_lt hm, half_of_lt ha]
  rfl

theorem pack_of_not_fits (h : s.fits = false) : s.pack = .error (.insufficientStates halfLimit) := by
  rw [pack]
  by_cases hm : s.model < halfLimit
  · have ha : halfLimit ≤ s.automaton := by simpa [fits, hm] using h
    rw [half_of_lt hm, half_of_le ha]
    rfl
  · rw [half_of_le (Nat.not_lt.mp hm)]
    rfl

/-- The upper half of the word counts in multiples of the lower one. -/
theorem toNat_of_pack (h : s.pack = .ok w) : w.toNat = s.model * halfLimit + s.automaton := by
  cases hfits : s.fits with
  | false =>
    rw [pack_of_not_fits hfits] at h
    cases h
  | true =>
    obtain ⟨hm, ha⟩ := fits_iff.mp hfits
    rw [pack_of_fits hfits] at h
    cases h
    have hbits : halfBits.toNat % 64 = 32 := rfl
    have hword : ∀ n < halfLimit, (UInt64.ofNat n).toNat = n := fun n hn =>
      UInt64.toNat_ofNat_of_lt' (Nat.lt_trans hn (by decide))
    rw [UInt64.toNat_or, UInt64.toNat_shiftLeft, hword _ hm, hword _ ha, hbits, Nat.shiftLeft_eq]
    -- Nothing is shifted out, and the halves have no bit in common.
    have hshift : s.model * 2 ^ 32 < 2 ^ 64 := by
      rw [halfLimit_eq] at hm
      omega
    rw [Nat.mod_eq_of_lt hshift, ← Nat.shiftLeft_eq, ← Nat.shiftLeft_add_eq_or_of_lt ha, Nat.shiftLeft_eq]
    rfl

theorem model_unpack (w : UInt64) : (unpack w).model = w.toNat / halfLimit := by
  rw [unpack, UInt64.toNat_shiftRight, Nat.shiftRight_eq_div_pow]
  rfl

theorem automaton_unpack (w : UInt64) : (unpack w).automaton = w.toNat % halfLimit := by
  have hmask : halfMask.toNat = 2 ^ 32 - 1 := rfl
  rw [unpack, UInt64.toNat_and, hmask, Nat.and_two_pow_sub_one_eq_mod]
  rfl

theorem fits_unpack (w : UInt64) : (unpack w).fits = true := by
  have hlt := w.toNat_lt
  rw [fits_iff, model_unpack, automaton_unpack, halfLimit_eq]
  omega

/-- Packing and unpacking undo each other. -/
theorem pack_eq_ok_iff : s.pack = .ok w ↔ unpack w = s := by
  constructor
  · intro h
    have hnat := toNat_of_pack h
    have hfits : s.fits = true := by
      by_contra hno
      rw [pack_of_not_fits (Bool.eq_false_iff.mpr hno)] at h
      cases h
    obtain ⟨-, ha⟩ := fits_iff.mp hfits
    have hpos : 0 < halfLimit := by decide
    have hmodel : (unpack w).model = s.model := by
      rw [model_unpack, hnat, Nat.add_comm, Nat.add_mul_div_right _ _ hpos, Nat.div_eq_of_lt ha, Nat.zero_add]
    have hautomaton : (unpack w).automaton = s.automaton := by
      rw [automaton_unpack, hnat, Nat.mul_add_mod_self_right, Nat.mod_eq_of_lt ha]
    cases s
    cases hmodel
    cases hautomaton
    rfl
  · rintro rfl
    obtain ⟨w', hpack⟩ : ∃ w', (unpack w).pack = .ok w' := ⟨_, pack_of_fits (fits_unpack w)⟩
    have hnat := toNat_of_pack hpack
    rw [model_unpack, automaton_unpack, Nat.mul_comm, Nat.div_add_mod] at hnat
    rw [hpack, UInt64.toNat_inj.mp hnat]

theorem unpack_injective : Function.Injective unpack := by
  intro w w' h
  exact Except.ok.inj ((pack_eq_ok_iff.mpr h).symm.trans (pack_eq_ok_iff.mpr rfl))

end ProductState

namespace ProductGraph

variable {W A : Type} {g g' : ProductGraph W A} {s : ProductState} {w : UInt64} {n : Nat}

/-! ## The states of the nodes -/

/-- The product states of the nodes in the order of their numbers. -/
def states (g : ProductGraph W A) : List ProductState := g.nodes.values.toList.map .unpack

theorem length_states (g : ProductGraph W A) : g.states.length = g.nodeCount := by
  simp [states, nodeCount, Interner.size]

theorem getElem?_states (g : ProductGraph W A) (n : Nat) : g.states[n]? = g.state? n := by
  rw [states, List.getElem?_map, ← Interner.get?_eq, state?]

theorem mem_states_of_state? (h : g.state? n = some s) : s ∈ g.states :=
  List.mem_of_getElem? ((g.getElem?_states n).trans h)

theorem exists_state?_of_mem (h : s ∈ g.states) : ∃ n, g.state? n = some s := by
  obtain ⟨n, hn⟩ := List.mem_iff_getElem?.mp h
  exact ⟨n, (g.getElem?_states n).symm.trans hn⟩

theorem lt_nodeCount_of_state? (h : g.state? n = some s) : n < g.nodeCount := by
  rw [← getElem?_states] at h
  exact g.length_states ▸ (List.getElem?_eq_some_iff.mp h).1

theorem exists_state?_of_lt (h : n < g.nodeCount) : ∃ s, g.state? n = some s := by
  rw [← length_states] at h
  exact ⟨g.states[n], (g.getElem?_states n).symm.trans (List.getElem?_eq_getElem h)⟩

theorem state?_eq_some_iff (hw : s.pack = .ok w) : g.state? n = some s ↔ g.nodes.get? n = some w := by
  rw [state?, Option.map_eq_some_iff, ← ProductState.pack_eq_ok_iff.mp hw]
  constructor
  · rintro ⟨w', hget, heq⟩
    rw [hget, ProductState.unpack_injective heq]
  · intro hget
    exact ⟨w, hget, rfl⟩

theorem mem_states_iff (hw : s.pack = .ok w) : s ∈ g.states ↔ w ∈ g.nodes.values.toList := by
  rw [← ProductState.pack_eq_ok_iff.mp hw, states]
  exact List.mem_map_of_injective ProductState.unpack_injective

theorem nodup_states (h : g.nodes.Distinct) : g.states.Nodup := List.Nodup.map ProductState.unpack_injective h

theorem state?_inj (h : g.nodes.Distinct) {n' : Nat} (hn : g.state? n = some s) (hn' : g.state? n' = some s) :
    n = n' := by
  obtain ⟨w, hget, rfl⟩ := Option.map_eq_some_iff.mp hn
  exact h.get?_inj hget ((state?_eq_some_iff (ProductState.pack_eq_ok_iff.mpr rfl)).mp hn')

theorem states_prefix_of_extends (h : g.nodes.Extends g'.nodes) : g.states <+: g'.states := h.map _

theorem state?_of_extends (h : g.nodes.Extends g'.nodes) (hs : g.state? n = some s) : g'.state? n = some s := by
  obtain ⟨w, hget, rfl⟩ := Option.map_eq_some_iff.mp hs
  rw [state?, h.get? hget]
  rfl

theorem map_state?_of_extends (h : g.nodes.Extends g'.nodes) {ns : List Nat} {ss : List ProductState}
    (hns : ns.map g.state? = ss.map some) : ns.map g'.state? = ss.map some := by
  rw [← hns]
  apply List.map_congr_left
  intro n hn
  obtain ⟨s, -, hs⟩ : ∃ s ∈ ss, some s = g.state? n := by
    rw [← List.mem_map, ← hns]
    exact List.mem_map_of_mem hn
  rw [← hs]
  exact state?_of_extends h hs.symm

theorem mem_states_of_map_state? {ns : List Nat} {ss : List ProductState} (h : ns.map g.state? = ss.map some)
    (hs : s ∈ ss) : s ∈ g.states := by
  have hmem : some s ∈ ns.map g.state? := by
    rw [h]
    exact List.mem_map_of_mem hs
  obtain ⟨k, -, hk⟩ := List.mem_map.mp hmem
  exact mem_states_of_state? hk

/-- There are no more nodes than words, so exploration reaches its end before its bound. -/
theorem nodeCount_lt_expansionBound (h : g.nodes.Distinct) : g.nodeCount < expansionBound := by
  have hinj : (g.nodes.values.toList.map UInt64.toNat).Nodup :=
    List.Nodup.map (fun _ _ => UInt64.toNat_inj.mp) h
  have hsub : g.nodes.values.toList.map UInt64.toNat ⊆
      List.range (ProductState.halfLimit * ProductState.halfLimit) := by
    intro k hk
    obtain ⟨w, -, rfl⟩ := List.mem_map.mp hk
    exact List.mem_range.mpr w.toNat_lt
  have hle := List.Nodup.length_le_of_subset hinj hsub
  rw [List.length_map, List.length_range] at hle
  exact Nat.lt_succ_of_le hle

end ProductGraph

end OmegaGames
