import OmegaGames.Proofs.FloatOrder
import OmegaGames.Proofs.ImprovementErrors
import OmegaGames.Proofs.SolutionViews

/-!
# Values of games without chance

Without chance a node has value one where Even wins and value zero where Odd does, and strategy
improvement finds exactly these values. The first strategy holds Even's region already: its attractor is
the region itself, so value iteration has nothing to iterate, and the strategy's values are zero and one.
No successor has a better value, and along consistent edges Even wins no more.
-/
namespace OmegaGames

open Scalar

variable {W : Type} {g : Game W}

/-! ## Zero and one -/

/-- An arithmetic that is exact as far as only zero and one occur. -/
structure Scalar.ExactUnits (W : Type) [Scalar W] : Prop where
  sub_zero : sub (one : W) zero = one
  sub_one : sub (one : W) one = zero
  not_zero_lt_zero : lt (zero : W) zero = false
  not_one_lt_zero : lt (one : W) zero = false
  not_one_lt_one : lt (one : W) one = false
  zero_le_zero : le (zero : W) zero = true
  one_le_one : le (one : W) one = true
  one_sub_le_one : ∀ t : W, lt zero t = true → le (sub one t) one = true

theorem Float.exactUnits : ExactUnits Float where
  sub_zero := by decide +kernel
  sub_one := by decide +kernel
  not_zero_lt_zero := by decide +kernel
  not_one_lt_zero := by decide +kernel
  not_one_lt_one := by decide +kernel
  zero_le_zero := by decide +kernel
  one_le_one := by decide +kernel
  one_sub_le_one _ ht := decide_eq_true (Float.one_sub_le_one (of_decide_eq_true ht))

/-! ## Solutions -/

theorem Game.Derived.no_chance {h : Game W} {k : Nat} (hd : h.Derived k g)
    (hno : ∀ v < g.size, g.owner v ≠ .stochastic) : ∀ v < h.size, h.owner v ≠ .stochastic := by
  intro v hv hs
  obtain ⟨f, -, hf⟩ := hd
  obtain ⟨hu, howner, -⟩ := hf v hv
  exact hno (f v) hu (howner hs)

theorem QualitativeSolver.handles_of_no_chance (s : QualitativeSolver)
    (hno : ∀ v < g.size, g.owner v ≠ .stochastic) : s.Handles g := by
  cases s with
  | recursive s => trivial
  | lifting s => exact hno
  | gadget inner => trivial

/-- Even attracts nothing to its region that is not in it. -/
theorem IsSolution.unknown_eq_nil [Scalar W] {even odd : NodeSet} (hg : g.Valid)
    (h : IsSolution g even odd) (hno : ∀ v < g.size, g.owner v ≠ .stochastic) :
    ValueIteration.unknown g.arena even = [] := by
  obtain ⟨τ, hτ⟩ := h.held_odd
  obtain ⟨f, hf, hatt⟩ := g.attraction_strongAttractor even .even (NodeSet.range_full g.size)
  rw [List.eq_nil_iff_forall_not_mem]
  intro v hv
  have hv := (NodeSet.mem_toList _ _).mp hv
  obtain ⟨hreached, hout⟩ := NodeSet.mem_diff.mp hv
  have hreached : v ∈ f.reached := hf ▸ hreached
  have hodd : ∀ u < g.size, u ∉ even → u ∈ odd := fun u hu hue => (h.covered u hu).resolve_left hue
  refine hout (hatt.subset_of_closed (B := (· ∈ even)) (fun _ _ hmem => hmem) ?_ ?_ hreached)
  · intro u hu _ ho t ht hte
    have hu := NodeSet.mem_full.mp hu
    have hown : g.owner u = .even := ho.resolve_right (hno u hu)
    by_contra hue
    exact h.not_mem_odd hg h hte (hτ.mem_of_mem_succs hg (hodd u hu hue) (by simp [hown]) ht)
  · intro u hu _ _ _ _ hall
    have hu := NodeSet.mem_full.mp hu
    by_contra hue
    obtain ⟨t, ht, hto⟩ := hτ.total hg u (hodd u hu hue)
    exact h.not_mem_odd hg h (hall t ht (NodeSet.mem_full.mpr (hg.succ_lt ht))) hto

/-! ## Taking over decisions -/

namespace Improvement

section Adopt

variable {sub : Subgame W} {p : Nat → Bool} {decision : Nat → Option Nat}

private theorem size_adoptNode (σ : Strategy) (k : Nat) : (adoptNode sub p decision σ k).size = σ.size := by
  rw [adoptNode]
  split
  · split
    · exact Strategy.size_set _ _ _
    · rfl
  · rfl

private theorem get_adoptNode_of_ne (σ : Strategy) {k v : Nat} (h : p k = true → sub.orig k ≠ v) :
    (adoptNode sub p decision σ k).get v = σ.get v := by
  rw [adoptNode]
  split
  · rename_i hk
    split
    · rw [Strategy.get_set, if_neg fun heq => h (Bool.and_eq_true_iff.mp hk).2 heq.1]
    · rfl
  · rfl

theorem get_adopt_of_ne (σ : Strategy) {v : Nat}
    (h : ∀ k < sub.game.size, p k = true → sub.orig k ≠ v) :
    (adopt sub p decision σ).get v = σ.get v := by
  rw [adopt_eq]
  exact List.foldlRecOn (motive := fun τ : Strategy => τ.get v = σ.get v) _ _ rfl fun τ hτ k hk =>
    (get_adoptNode_of_ne τ (h k (List.mem_range.mp hk))).trans hτ

theorem get_adopt {σ : Strategy} {k i : Nat} (hk : k < sub.game.size) (ho : sub.game.owner k = .even)
    (hp : p k = true) (hi : decision k = some i) (hlt : sub.orig k < σ.size)
    (hinj : ∀ j < sub.game.size, sub.orig j = sub.orig k → j = k) :
    (adopt sub p decision σ).get (sub.orig k) = some (sub.origPosition k i) := by
  rw [adopt_eq]
  have hsize : ∀ n, ((List.range n).foldl (adoptNode sub p decision) σ).size = σ.size := fun n =>
    List.foldlRecOn (motive := fun τ : Strategy => τ.size = σ.size) _ _ rfl fun τ hτ k _ =>
      (size_adoptNode τ k).trans hτ
  have hrun : ∀ n ≤ sub.game.size, k < n →
      ((List.range n).foldl (adoptNode sub p decision) σ).get (sub.orig k) =
        some (sub.origPosition k i) := by
    intro n
    induction n with
    | zero =>
      intro _ hkn
      exact absurd hkn (Nat.not_lt_zero k)
    | succ n ih =>
      intro hn hkn
      rw [List.range_succ, List.foldl_append, List.foldl_cons, List.foldl_nil]
      by_cases heq : n = k
      · subst heq
        rw [adoptNode, if_pos (by simp [ho, hp]), hi]
        dsimp only
        rw [Strategy.get_set, if_pos ⟨rfl, by rwa [hsize]⟩]
      · rw [get_adoptNode_of_ne _ fun _ hsame => heq (hinj n (by omega) hsame)]
        exact ih (by omega) (by omega)
  exact hrun _ le_rfl hk

end Adopt

/-! ## The phases of a solution -/

variable [Scalar W] {s : Improvement W} {even odd : NodeSet}

/-- Value one on a region and zero elsewhere. -/
def Separates (g : Game W) (even : NodeSet) (values : Array W) : Prop :=
  ∀ v < g.size, ValueIteration.valueAt values v = if even.contains v then one else zero

section Reach

variable (hg : g.Valid) (hno : ∀ v < g.size, g.owner v ≠ .stochastic) (h : IsSolution g even odd)
  (hprecision : lt zero s.reach.precision = true) (hsweeps : 0 < s.reach.sweeps)

include hg hno h hprecision hsweeps in
/-- Value iteration towards Even's region comes to rest at once. -/
theorem exists_reachOutlook (request : Request) :
    ∃ o, s.reachOutlook g even request = .ok o ∧ o.values = ValueIteration.start g even := by
  have hsettle : ValueIteration.settle g s.reach.precision (ValueIteration.unknown g.arena even)
      s.reach.sweeps (ValueIteration.start g even) = some (ValueIteration.start g even) := by
    obtain ⟨sweeps, hn⟩ := Nat.exists_eq_succ_of_ne_zero hsweeps.ne'
    rw [h.unknown_eq_nil hg hno, hn]
    simp [ValueIteration.settle, ValueIteration.sweep, hprecision]
  rw [reachOutlook, ValueIteration.solve_eq_ok hg.isClosed hsettle request]
  exact ⟨_, rfl, rfl⟩

end Reach

/-! ### The first strategy -/

theorem isEmpty_of_subgame_odd (hg : g.Valid) (hno : ∀ v < g.size, g.owner v ≠ .stochastic)
    (h : IsSolution g even odd) {r : Regions} (hr : r.HeldByEven (g.subgame odd).game) :
    r.even.isEmpty = true := by
  obtain ⟨τ, hτ⟩ := h.held_odd
  have hvalid := (Game.valid_subgame_iff hg h.range_odd).mpr (hτ.total hg)
  obtain ⟨τ', hτ'⟩ := Game.exists_dominion_subgame hg hno h.range_odd hτ
  obtain ⟨σ, -, hσ⟩ := hr.held
  rw [NodeSet.isEmpty_iff]
  intro k hk
  exact hσ.disjoint (by simp) hvalid hτ' hk (hσ.inside hk)

theorem hopeless_eq_odd (hg : g.Valid) (h : IsSolution g even odd)
    (hzero : lt zero s.negligible = true) (hone : lt one s.negligible = false) {reached : Outlook W}
    (hvalues : Separates g even reached.values) :
    s.hopeless g (g.subgame (.full g.size)) reached = odd := by
  refine NodeSet.ext_range ((range_hopeless _ _).trans h.range_odd.symm) fun v hv => ?_
  rw [range_hopeless] at hv
  have hvalue : reached.value v = if even.contains v then one else zero := hvalues v hv
  rw [h.mem_odd_iff hg hv, NodeSet.mem_iff v even]
  constructor
  · intro hmem
    obtain ⟨k, hk, hkv, hlt⟩ := exists_of_mem_hopeless hmem
    rw [Game.game_subgame_full hg] at hk
    obtain rfl : k = v := Option.some.inj ((NodeSet.getElem?_toList_full hk).symm.trans hkv)
    intro he
    rw [hvalue, if_pos he, hone] at hlt
    cases hlt
  · intro he
    rw [if_neg he] at hvalue
    have hmem : v ∈ ((List.range (g.subgame (.full g.size)).game.size).filter fun v =>
        lt (reached.value v) s.negligible).map (g.subgame (.full g.size)).orig := by
      refine List.mem_map.mpr ⟨v, List.mem_filter.mpr ⟨?_, ?_⟩, Game.orig_subgame_full hv⟩
      · rwa [Game.game_subgame_full hg, List.mem_range]
      · rwa [hvalue]
    exact NodeSet.mem_ofList hv hmem

section Initialise

variable (hg : g.Valid) (hno : ∀ v < g.size, g.owner v ≠ .stochastic)
  (hp : ∀ v < g.size, g.priority v + 1 < infinitePriority)

include hg in
/-- Even's region keeps the decisions of the solver through the first round. -/
theorem get_settleRegion_full {won : Regions} (hwon : won.HeldByEven g) (reached : Outlook W) {v : Nat}
    (hv : v ∈ won.even) (ho : g.owner v = .even) :
    (settleRegion g (.full g.size) won reached (.blank g.size)).get v = won.decision v := by
  have hlt : v < g.size := hwon.range ▸ NodeSet.lt_range hv
  obtain ⟨σ, hσ, hheld⟩ := hwon.held
  obtain ⟨i, t, hi, ht, -⟩ := hheld.decided v hv ho
  have hdecision : won.decision v = some i := by
    rw [Regions.decision, hσ]
    exact hi
  have hgame := Game.game_subgame_full hg
  have horig : ∀ k < (g.subgame (.full g.size)).game.size, (g.subgame (.full g.size)).orig k = k :=
    fun k hk => Game.orig_subgame_full (by rwa [hgame] at hk)
  have hsub : v < (g.subgame (.full g.size)).game.size := by rwa [hgame]
  rw [settleRegion, get_adopt_of_ne]
  · have hget := get_adopt (p := won.even.contains) (σ := Strategy.blank g.size) hsub (by rwa [hgame]) hv
      hdecision (by rwa [horig v hsub, Strategy.size_blank]) fun j hj hjv => by rwa [horig j hj, horig v hsub] at hjv
    rwa [horig v hsub, Game.origPosition_subgame_full hg (g.lt_degree_of_succ? ht), ← hdecision] at hget
  · intro k hk hnot heq
    rw [horig k hk] at heq
    subst heq
    simp only [NodeSet.mem_iff] at hv
    simp [hv] at hnot

include hg hno hp in
/-- Deciding Odd's region anew changes no decision outside of it. -/
theorem exists_initialise_odd (h : IsSolution g even odd)
    (hroom : s.qualitative.HasRoom g ⟨true, .evenOnly⟩) (depth : Nat) (σ : Strategy) :
    ∃ σ', s.initialise g (depth + 1) odd σ = .ok σ' ∧ ∀ v, v ∉ odd → σ'.get v = σ.get v := by
  obtain ⟨τ, hτ⟩ := h.held_odd
  have hvalid := (Game.valid_subgame_iff hg h.range_odd).mpr (hτ.total hg)
  have hlow := (Game.derived_subgame h.range_odd 1).priority_lt hp
  have hhandles := (s.qualitative.handles_of_no_chance hno).derived (Game.derived_subgame h.range_odd 0)
  obtain ⟨won, hwon⟩ := (s.qualitative.solve_strictEven_cases hlow hvalid hhandles .evenOnly).1
    (hroom.mono (Game.derived_subgame h.range_odd 0) .evenOnly)
  have hheld := s.qualitative.heldByEven_of_solve hvalid hwon
  refine ⟨adopt (g.subgame odd) (fun _ => true) (fun _ => some 0) σ, ?_, fun v hv => ?_⟩
  · rw [initialise_succ, hwon]
    simp only [bind, Except.bind]
    rw [if_pos (isEmpty_of_subgame_odd hg hno h hheld)]
  · exact get_adopt_of_ne σ fun k hk _ heq => hv (heq ▸ Game.orig_mem_of_lt hk)

include hg hno hp in
theorem exists_initialise (h : IsSolution g even odd) (hzero : lt zero s.negligible = true)
    (hone : lt one s.negligible = false) (hprecision : lt zero s.reach.precision = true)
    (hsweeps : 0 < s.reach.sweeps) (hroom : s.qualitative.HasRoom g ⟨true, .evenOnly⟩) :
    ∃ σ, s.initialise g (g.size + 1) (.full g.size) (.blank g.size) = .ok σ ∧
      Dominion g .even σ (NodeSet.full g.size).toSet even.toSet := by
  have hlow : ∀ v < g.size, g.priority v < infinitePriority := fun v hv => Nat.lt_of_succ_lt (hp v hv)
  have hgame := Game.game_subgame_full hg
  obtain ⟨won, hwon, hsol⟩ := (s.qualitative.solve_solution_cases hg hno hlow _ (Or.inl rfl)).1 hroom
  obtain ⟨rfl, rfl⟩ := hsol.unique hg h
  have hheld := s.qualitative.heldByEven_of_solve hg hwon
  rw [initialise_succ, hgame, hwon]
  simp only [bind, Except.bind]
  by_cases hempty : won.even.isEmpty = true
  · rw [if_pos hempty]
    have hnone : won.even.toSet = ∅ := Set.eq_empty_of_forall_notMem ((NodeSet.isEmpty_iff _).mp hempty)
    exact ⟨_, rfl, hnone ▸ Dominion.empty⟩
  · rw [if_neg hempty]
    obtain ⟨reached, hreached, hvalues⟩ := exists_reachOutlook hg hno h hprecision hsweeps .evenOnly
    rw [hreached]
    dsimp only
    rw [hopeless_eq_odd hg h hzero hone (hvalues ▸ fun v hv => ValueIteration.valueAt_start hv)]
    obtain ⟨σ, hσ, hD⟩ := hheld.held
    have hget : ∀ v ∈ won.even.toSet, g.owner v = .even →
        (settleRegion g (.full g.size) won reached (.blank g.size)).get v = σ.get v := by
      intro v hv ho
      rw [get_settleRegion_full hg hheld reached hv ho, Regions.decision, hσ]
      rfl
    by_cases hodd : won.odd.isEmpty = true
    · rw [if_pos hodd]
      exact ⟨_, rfl, hD.congr_owned hget⟩
    · rw [if_neg hodd]
      obtain ⟨w, hw⟩ := NodeSet.exists_mem_of_not_isEmpty hodd
      obtain ⟨n, hn⟩ := Nat.exists_eq_succ_of_ne_zero
        (Nat.ne_of_gt (Nat.zero_lt_of_lt (h.range_odd ▸ NodeSet.lt_range hw)))
      obtain ⟨σ', hσ', hframe⟩ := exists_initialise_odd hg hno hp h hroom n
        (settleRegion g (.full g.size) won reached (.blank g.size))
      rw [← Nat.succ_eq_add_one, ← hn] at hσ'
      refine ⟨σ', hσ', hD.congr_owned fun v hv ho => ?_⟩
      rw [hframe v (h.not_mem_odd hg h hv), hget v hv ho]

end Initialise

/-! ### A round of improvement -/

section Round

variable (hg : g.Valid) (hno : ∀ v < g.size, g.owner v ≠ .stochastic)
  (hp : ∀ v < g.size, g.priority v + 1 < infinitePriority) (h : IsSolution g even odd) {σ : Strategy}
  (hσ : σ.Fits g) (hD : Dominion g .even σ (NodeSet.full g.size).toSet even.toSet)

omit [Scalar W] in
include hno h hσ hD in
/-- Where Even follows a strategy that holds its region, the regions stay the same. -/
theorem isSolution_induced : IsSolution (g.induced σ .even).game even odd := by
  obtain ⟨τ, hτ⟩ := h.held_odd
  refine h.restrict (Game.lt_degree_of_mem_openPositions hσ) hno hD hτ (fun v _ ho i hi => ?_)
    fun v hv ho i hi => ?_
  · rw [Game.openPositions_of_decided ho hi]
    exact List.mem_singleton_self i
  · obtain ⟨t, ht, -⟩ := hτ.exists_succ?_of_get hv ho hi
    rw [Game.openPositions_of_owner_ne (by simp [ho])]
    exact List.mem_range.mpr (g.lt_degree_of_succ? ht)

include hg hno hp h hσ hD in
theorem exists_evaluate (hunits : ExactUnits W) (hprecision : lt zero s.reach.precision = true)
    (hsweeps : 0 < s.reach.sweeps) (hroom : s.HasRoom g) (wantOdd : Bool) :
    ∃ o, s.evaluate g σ wantOdd = .ok o ∧ Separates g even o.values := by
  let request := if wantOdd then Request.evenOnly else Request.none
  have hvalid := Game.valid_dual_induced (x := .even) hg hσ hp
  have hderived := Game.derived_dual_induced (x := .even) hg hσ
  have hno' := hderived.no_chance hno
  have hsol := (isSolution_induced hno h hσ hD).dual (Game.valid_induced hg hσ)
  obtain ⟨won, hwon, hwon'⟩ := (s.qualitative.solve_solution_cases hvalid hno' (hderived.priority_lt hp)
    ⟨true, request⟩ (Or.inl rfl)).1 (hroom.derived hg hderived request)
  obtain ⟨heven, -⟩ := hwon'.unique hvalid hsol
  obtain ⟨reached, hreached, hvalues⟩ := exists_reachOutlook hvalid hno' hsol hprecision hsweeps request
  rw [← heven] at hreached
  have hevaluate : ∃ strategy, s.evaluate g σ wantOdd = .ok ⟨reached.values.map (sub one), strategy⟩ := by
    simp only [evaluate, bind, Except.bind, pure, Except.pure]
    rw [hwon]
    dsimp only
    rw [hreached]
    exact ⟨_, rfl⟩
  obtain ⟨strategy, hevaluate⟩ := hevaluate
  refine ⟨_, hevaluate, fun v hv => ?_⟩
  have hlt : v < (g.induced σ .even).game.dual.size := by
    rwa [Game.size_dual, Game.induced, Game.size_restrict]
  have hvalue : ValueIteration.valueAt (reached.values.map (sub one)) v =
      sub one (if odd.contains v then one else zero) := by
    rw [hvalues, ValueIteration.valueAt, ValueIteration.start, Array.getD_eq_getD_getElem?,
      Array.getElem?_map, Array.getElem?_ofFn, dif_pos hlt]
    rfl
  refine hvalue.trans ?_
  have hiff := h.mem_odd_iff hg hv
  simp only [NodeSet.mem_iff] at hiff
  by_cases he : even.contains v = true
  · rw [if_neg fun ho => hiff.mp ho he, if_pos he, hunits.sub_zero]
  · rw [if_pos (hiff.mpr he), if_neg he, hunits.sub_one]

include hg hno hp hσ in
theorem evaluate_of_not_hasRoom (hroom : ¬ s.HasRoom g) (wantOdd : Bool) :
    s.evaluate g σ wantOdd = .error .capacity := by
  have hvalid := Game.valid_dual_induced (x := .even) hg hσ hp
  have hderived := Game.derived_dual_induced (x := .even) hg hσ
  have hnot : ∀ request, ¬ s.qualitative.HasRoom (g.induced σ .even).game.dual ⟨true, request⟩ := by
    have hsize : (g.induced σ .even).game.size = g.size := by rw [Game.induced, Game.size_restrict]
    refine fun request hdual => hroom (hdual.mono (.of_size_eq ?_ (fun v hv hs => ?_) fun v hv => ?_) .none)
    · rw [Game.size_dual, Game.size_dual, hsize]
    · rw [Game.size_dual, hsize] at hv
      rwa [Game.owner_dual, Game.induced, Game.owner_restrict hv, ← Game.owner_dual]
    · rw [Game.size_dual] at hv
      rw [(Game.valid_induced hg hσ).priority_dual hv, hg.priority_dual (hsize ▸ hv), Game.induced,
        Game.priority_restrict (hsize ▸ hv)]
  have hsolve := fun request => (s.qualitative.solve_solution_cases hvalid (hderived.no_chance hno)
    (hderived.priority_lt hp) ⟨true, request⟩ (Or.inl rfl)).2 (hnot request)
  simp only [evaluate, hsolve, bind, Except.bind]

include hg h in
theorem betterSuccessor?_eq_none (hunits : ExactUnits W) {values : Array W}
    (hvalues : Separates g even values) {v : Nat} (hv : v < g.size) (ho : g.owner v = .even) :
    betterSuccessor? g values v = none := by
  have hno_better : ∀ u ∈ g.succs v,
      lt (ValueIteration.valueAt values v) (ValueIteration.valueAt values u) = false := by
    intro u hu
    rw [hvalues v hv, hvalues u (hg.succ_lt hu)]
    by_cases he : even.contains v = true
    · rw [if_pos he]
      split
      · exact hunits.not_one_lt_one
      · exact hunits.not_one_lt_zero
    · have hvo := (h.covered v hv).resolve_left he
      obtain ⟨τ, hτ⟩ := h.held_odd
      have huo := hτ.mem_of_mem_succs hg hvo (by simp [ho]) hu
      have hue : ¬ even.contains u = true := (h.mem_odd_iff hg (hg.succ_lt hu)).mp huo
      rw [if_neg he, if_neg hue]
      exact hunits.not_zero_lt_zero
  refine List.foldlRecOn (motive := fun b : Option (Nat × W) => b = none) _ _ rfl ?_
  rintro _ rfl ⟨u, i⟩ hmem
  have hu : u ∈ g.succs v := List.mem_of_getElem? (List.mem_zipIdx_iff_getElem?.mp hmem)
  simp [hno_better u hu]

theorem improveDirectly_eq {values : Array W}
    (hnone : ∀ v < g.size, g.owner v = .even → betterSuccessor? g values v = none) (σ : Strategy) :
    improveDirectly s g values σ = (σ, false) := by
  refine List.foldlRecOn (motive := fun state : Strategy × Bool => state = (σ, false)) _ _ rfl ?_
  rintro _ rfl v hv
  dsimp only
  split
  · rename_i ho
    rw [hnone v (List.mem_range.mp hv) ho]
  · rfl

theorem consistent_of_same (hunits : ExactUnits W) {values : Array W} (hvalues : Separates g even values)
    {v i t : Nat} (hv : v < g.size) (ht : t < g.size) (hi : g.succ? v i = some t)
    (hsame : even.contains t = even.contains v) : s.consistent g values v i = true := by
  have hle : le (if even.contains v then (one : W) else zero) (if even.contains v then one else zero) =
      true := by
    split
    · exact hunits.one_le_one
    · exact hunits.zero_le_zero
  simp only [consistent, hi]
  rw [hvalues v hv, hvalues t ht, hsame, hle]
  cases g.owner v <;> rfl

section Consistent

variable (hunits : ExactUnits W) {values : Array W} (hvalues : Separates g even values)

include hg h hunits hvalues

theorem consistent_of_even {v i t : Nat} (hv : v ∈ even) (ht : t ∈ even) (hi : g.succ? v i = some t) :
    s.consistent g values v i = true := by
  have hlt : v < g.size := h.range_even ▸ NodeSet.lt_range hv
  exact consistent_of_same hunits hvalues hlt (hg.succ_lt (g.mem_succs_of_succ? hi)) hi
    (Bool.eq_iff_iff.mpr (iff_of_true ht hv))

theorem consistent_of_odd {v i t : Nat} (hv : v ∈ odd) (ht : t ∈ odd) (hi : g.succ? v i = some t) :
    s.consistent g values v i = true := by
  have hlt : v < g.size := h.range_odd ▸ NodeSet.lt_range hv
  have htlt := hg.succ_lt (g.mem_succs_of_succ? hi)
  exact consistent_of_same hunits hvalues hlt htlt hi (Bool.eq_iff_iff.mpr
    (iff_of_false ((h.mem_odd_iff hg htlt).mp ht) ((h.mem_odd_iff hg hlt).mp hv)))

/-- Every node has a consistent edge: one that stays in its region. -/
theorem valid_keepEdges_consistent : (g.keepEdges (s.consistent g values)).game.Valid := by
  rw [Game.valid_keepEdges_iff hg]
  intro v hv
  suffices hstay : ∃ t ∈ g.succs v, ∀ i, g.succ? v i = some t → s.consistent g values v i = true by
    obtain ⟨t, ht, hall⟩ := hstay
    obtain ⟨i, hi⟩ := (g.mem_succs_iff v t).mp ht
    exact ⟨i, g.lt_degree_of_succ? hi, hall i hi⟩
  rcases h.covered v hv with hve | hvo
  · obtain ⟨σ, hσ⟩ := h.held_even
    obtain ⟨t, ht, hte⟩ := hσ.total hg v hve
    exact ⟨t, ht, fun i hi => consistent_of_even hg h hunits hvalues hve hte hi⟩
  · obtain ⟨τ, hτ⟩ := h.held_odd
    obtain ⟨t, ht, hto⟩ := hτ.total hg v hvo
    exact ⟨t, ht, fun i hi => consistent_of_odd hg h hunits hvalues hvo hto hi⟩

include hno in
/-- The regions stay the same where only consistent edges are allowed. -/
theorem isSolution_keepEdges : IsSolution (g.keepEdges (s.consistent g values)).game even odd := by
  obtain ⟨σ, hσ⟩ := h.held_even
  obtain ⟨τ, hτ⟩ := h.held_odd
  refine h.restrict Game.lt_degree_of_mem_filter hno hσ hτ (fun v hv ho i hi => ?_) fun v hv ho i hi => ?_
  · obtain ⟨t, ht, hte⟩ := hσ.exists_succ?_of_get hv ho hi
    exact List.mem_filter.mpr ⟨List.mem_range.mpr (g.lt_degree_of_succ? ht),
      consistent_of_even hg h hunits hvalues hv hte ht⟩
  · obtain ⟨t, ht, hto⟩ := hτ.exists_succ?_of_get hv ho hi
    exact List.mem_filter.mpr ⟨List.mem_range.mpr (g.lt_degree_of_succ? ht),
      consistent_of_odd hg h hunits hvalues hv hto ht⟩

include hno hp in
/-- Along consistent edges Even wins only nodes of value one. -/
theorem improveRegion_eq (htolerance : lt zero s.tolerance = true) (hroom : s.HasRoom g) (σ : Strategy) :
    s.improveRegion g values σ = .ok (σ, false) := by
  have hvalid := valid_keepEdges_consistent (s := s) hg h hunits hvalues
  have hsol := isSolution_keepEdges (s := s) hg hno h hunits hvalues
  have hderived : (g.keepEdges (s.consistent g values)).game.Derived 1 g := Game.derived_restrict _ 1
  obtain ⟨won, hwon, hwon'⟩ := (s.qualitative.solve_solution_cases hvalid (hderived.no_chance hno)
    (hderived.priority_lt hp) ⟨true, .evenOnly⟩ (Or.inl rfl)).1 (hroom.derived hg hderived .evenOnly)
  obtain ⟨heven, -⟩ := hwon'.unique hvalid hsol
  have hall : won.even.toList.all (fun v =>
      le (sub one s.tolerance) (ValueIteration.valueAt values v)) = true := by
    rw [List.all_eq_true, heven]
    intro v hv
    have hv := (NodeSet.mem_toList _ _).mp hv
    rw [hvalues v (h.range_even ▸ NodeSet.lt_range hv), if_pos hv]
    exact hunits.one_sub_le_one _ htolerance
  simp only [improveRegion, hwon, bind, Except.bind, pure, Except.pure]
  rw [if_pos hall]

end Consistent

end Round

/-! ### Solving -/

section Solve

variable (hg : g.Valid) (hno : ∀ v < g.size, g.owner v ≠ .stochastic)
  (hp : ∀ v < g.size, g.priority v + 1 < infinitePriority) (h : IsSolution g even odd)
  (hzero : lt zero s.negligible = true) (hone : lt one s.negligible = false)
  (hprecision : lt zero s.reach.precision = true) (hsweeps : 0 < s.reach.sweeps)

include hg hno hp h hzero hone hprecision hsweeps

/-- The first strategy names edges and holds Even's region. -/
theorem exists_first (hroom : s.qualitative.HasRoom g ⟨true, .evenOnly⟩) :
    ∃ σ, s.initialise g (g.size + 1) (.full g.size) (.blank g.size) = .ok σ ∧ σ.Fits g ∧
      Dominion g .even σ (NodeSet.full g.size).toSet even.toSet := by
  obtain ⟨σ, hσ, hD⟩ := exists_initialise hg hno hp h hzero hone hprecision hsweeps hroom
  have hfirst := outcome_initialise hg hp (s.qualitative.handles_of_no_chance hno) hone (g.size + 1)
    (NodeSet.range_full _) (NodeSet.size_full_lt _) (.blank g.size)
  exact ⟨σ, hσ, hfirst.result σ hσ, hD⟩

theorem exists_solve (hunits : ExactUnits W) (htolerance : lt zero s.tolerance = true)
    (hrounds : 0 < s.rounds) (hroom : s.HasRoom g) (request : Request) :
    ∃ o, s.solve g request = .ok o ∧ Separates g even o.values := by
  obtain ⟨σ, hσ, hfits, hD⟩ := exists_first hg hno hp h hzero hone hprecision hsweeps
    (hroom.derived hg (Game.derived_self g 1) .evenOnly)
  obtain ⟨o, ho, hvalues⟩ := exists_evaluate hg hno hp h hfits hD hunits hprecision hsweeps hroom request.odd
  have hdirect := improveDirectly_eq (s := s)
    (fun v hv hown => betterSuccessor?_eq_none hg h hunits hvalues hv hown) σ
  have hregion := improveRegion_eq hg hno hp h hunits hvalues htolerance hroom σ
  obtain ⟨rounds, hn⟩ := Nat.exists_eq_succ_of_ne_zero hrounds.ne'
  have himprove : s.improve g request s.rounds σ =
      .ok ⟨o.values, some (if request.odd then answer g o.strategy σ else σ)⟩ := by
    rw [hn, improve, ho]
    simp only [bind, Except.bind, hdirect, hregion]
    rfl
  have hsolve : ∃ strategy, s.solve g request = .ok ⟨o.values, strategy⟩ := by
    rw [solve, Game.checkValid_of_valid hg]
    simp only [bind, Except.bind, hσ, himprove, pure, Except.pure]
    exact ⟨_, rfl⟩
  obtain ⟨strategy, hsolve⟩ := hsolve
  exact ⟨_, hsolve, hvalues⟩

theorem solve_of_not_hasRoom (hrounds : 0 < s.rounds) (hroom : ¬ s.HasRoom g) (request : Request) :
    s.solve g request = .error .capacity := by
  have hlow : ∀ v < g.size, g.priority v < infinitePriority := fun v hv => Nat.lt_of_succ_lt (hp v hv)
  rw [solve, Game.checkValid_of_valid hg]
  by_cases hroom' : s.qualitative.HasRoom g ⟨true, .evenOnly⟩
  · -- the game itself is solved, but its dual is not
    obtain ⟨σ, hσ, hfits, -⟩ := exists_first hg hno hp h hzero hone hprecision hsweeps hroom'
    obtain ⟨rounds, hn⟩ := Nat.exists_eq_succ_of_ne_zero hrounds.ne'
    have himprove : s.improve g request s.rounds σ = .error .capacity := by
      rw [hn, improve, evaluate_of_not_hasRoom hg hno hp hfits hroom]
      rfl
    simp only [bind, Except.bind, hσ, himprove]
  · have hsolve := (s.qualitative.solve_solution_cases hg hno hlow ⟨true, .evenOnly⟩ (Or.inl rfl)).2 hroom'
    have hfirst : s.initialise g (g.size + 1) (.full g.size) (.blank g.size) = .error .capacity := by
      rw [initialise_succ, Game.game_subgame_full hg, hsolve]
      rfl
    simp only [bind, Except.bind, hfirst]

end Solve

end Improvement

theorem QualitativeSolver.HasRoom.of_dual [Scalar W] {s : QualitativeSolver} (hg : g.Valid)
    (h : s.HasRoom g.dual ⟨true, .none⟩) (q : Query) : s.HasRoom g q := by
  obtain ⟨strictEven, request⟩ := q
  cases strictEven with
  | true => exact h.derived hg (Game.derived_self g 1) request
  | false =>
    cases s with
    | recursive s => trivial
    | lifting s => exact h.derived hg (Game.derived_self g 1) request
    | gadget inner => exact h

/-- Strategy improvement on floats over a solver, with the precision and the tolerance of value iteration
and its own tolerance. -/
def Improvement.onFloats (solver : QualitativeSolver) (precision reachTolerance tolerance : Float) :
    Improvement Float :=
  ⟨solver, ⟨precision, reachTolerance, Options.roundLimit⟩, tolerance, 1e-24, Options.roundLimit⟩

theorem Options.quantitative_eq (o : Options) :
    o.quantitative = .onFloats o.qualitative o.precision o.tolerance o.tolerance := by
  cases h : o.quantitativeSolver
  simp [quantitative, reachability, Improvement.onFloats]

namespace Improvement

private theorem zero_lt_negligible : lt zero (1e-24 : Float) = true := by decide +kernel

private theorem not_one_lt_negligible : lt one (1e-24 : Float) = false := by decide +kernel

private theorem roundLimit_pos : 0 < Options.roundLimit := Nat.two_pow_pos 62

/-- On floats a game without chance is refused if the solver has no room for its dual. -/
theorem solve_onFloats_of_not_hasRoom {solver : QualitativeSolver} {precision : Float}
    (reachTolerance tolerance : Float) (hprecision : 0 < precision) {g : Game Float} (hg : g.Valid)
    (hno : ∀ v < g.size, g.owner v ≠ .stochastic)
    (hp : ∀ v < g.size, g.priority v < Nat.pow 2 64 - 2)
    (hroom : ¬ solver.HasRoom g.dual ⟨true, .none⟩) (request : Request) :
    (onFloats solver precision reachTolerance tolerance).solve g request = .error .capacity := by
  have hsol := Recursive.isSolution_regions hg hno ⟨true⟩ ⟨true, .none⟩
  exact solve_of_not_hasRoom (s := onFloats solver precision reachTolerance tolerance) hg hno
    (fun v hv => priority_succ_lt (hp v hv)) hsol zero_lt_negligible not_one_lt_negligible
    (decide_eq_true hprecision) roundLimit_pos roundLimit_pos hroom request

/-- On a valid game without chance strategy improvement over any solver, with any positive tolerance and
precision, finds value one where the solver says that Even wins and value zero where it says that Odd
wins, whoever is strict. Only a solver without room for the dual game refuses it. -/
theorem solve_value_eq (solver : QualitativeSolver) (precision reachTolerance tolerance : Float)
    (hprecision : 0 < precision) (htolerance : 0 < tolerance) (g : Game Float) (hg : g.Valid)
    (hno : ∀ v < g.size, g.owner v ≠ .stochastic)
    (hp : ∀ v < g.size, g.priority v < Nat.pow 2 64 - 2) (request : Request) :
    (solver.HasRoom g.dual ⟨true, .none⟩ →
      ∃ o, (onFloats solver precision reachTolerance tolerance).solve g request = .ok o ∧
        ∀ q, ∃ r, solver.solve g q = .ok r ∧ ∀ v < g.size,
          v ∈ r.even ∧ v ∉ r.odd ∧ o.value v = 1 ∨ v ∈ r.odd ∧ v ∉ r.even ∧ o.value v = 0) ∧
    (¬ solver.HasRoom g.dual ⟨true, .none⟩ →
      (onFloats solver precision reachTolerance tolerance).solve g request = .error .capacity) := by
  have hfinite : ∀ v < g.size, g.priority v + 1 < infinitePriority := fun v hv => priority_succ_lt (hp v hv)
  have hlow : ∀ v < g.size, g.priority v < infinitePriority := fun v hv => Nat.lt_of_succ_lt (hfinite v hv)
  have hsol := Recursive.isSolution_regions hg hno ⟨true⟩ ⟨true, .none⟩
  refine ⟨fun hroom => ?_, fun hroom =>
    solve_onFloats_of_not_hasRoom reachTolerance tolerance hprecision hg hno hp hroom request⟩
  obtain ⟨o, ho, hvalues⟩ := exists_solve (s := onFloats solver precision reachTolerance tolerance) hg hno
    hfinite hsol zero_lt_negligible not_one_lt_negligible (decide_eq_true hprecision) roundLimit_pos
    Float.exactUnits (decide_eq_true htolerance) roundLimit_pos hroom request
  refine ⟨o, ho, fun q => ?_⟩
  obtain ⟨r, hr, hr'⟩ := (solver.solve_solution_cases hg hno hlow q (Or.inr hfinite)).1 (hroom.of_dual hg q)
  obtain ⟨heven, -⟩ := hr'.unique hg hsol
  refine ⟨r, hr, fun v hv => ?_⟩
  have hvalue := hvalues v hv
  rw [← heven] at hvalue
  by_cases hve : v ∈ r.even
  · rw [if_pos ((NodeSet.mem_iff _ _).mp hve)] at hvalue
    exact Or.inl ⟨hve, fun hvo => (hr'.mem_odd_iff hg hv).mp hvo hve, hvalue⟩
  · rw [if_neg fun hc => hve ((NodeSet.mem_iff _ _).mpr hc)] at hvalue
    exact Or.inr ⟨(hr'.mem_odd_iff hg hv).mpr hve, hve, hvalue⟩

end Improvement

theorem Improvement.solve_fork_value_eq :
    (0 : Float) < 1e-10 ∧ (0 : Float) < 1e-6 ∧ (Game.fork Float).Valid ∧
      (∀ v < (Game.fork Float).size, (Game.fork Float).owner v ≠ .stochastic) ∧
      (∀ v < (Game.fork Float).size, (Game.fork Float).priority v < Nat.pow 2 64 - 2) ∧
      ∃ o, (Improvement.onFloats (.lifting ⟨.all, .fifo⟩) 1e-10 1e-6 1e-6).solve (Game.fork Float) .both = .ok o ∧
        ∀ q, ∃ r, QualitativeSolver.solve (.lifting ⟨.all, .fifo⟩) (Game.fork Float) q = .ok r ∧
          ∀ v < (Game.fork Float).size,
            v ∈ r.even ∧ v ∉ r.odd ∧ o.value v = 1 ∨ v ∈ r.odd ∧ v ∉ r.even ∧ o.value v = 0 := by
  have hprecision : (0 : Float) < 1e-10 := by decide +kernel
  have htolerance : (0 : Float) < 1e-6 := by decide +kernel
  have hg : (Game.fork Float).Valid := Option.isNone_iff_eq_none.mp (by decide +kernel)
  have hno : ∀ v < (Game.fork Float).size, (Game.fork Float).owner v ≠ .stochastic := by decide
  have hp : ∀ v < (Game.fork Float).size, (Game.fork Float).priority v < Nat.pow 2 64 - 2 := by decide
  have hroom : QualitativeSolver.HasRoom (.lifting ⟨.all, .fifo⟩) (Game.fork Float).dual ⟨true, .none⟩ := by
    decide +kernel
  exact ⟨hprecision, htolerance, hg, hno, hp, (Improvement.solve_value_eq _ 1e-10 1e-6 1e-6 hprecision
    htolerance (Game.fork Float) hg hno hp .both).1 hroom⟩

/-- Even wins the tower, but improvement over lifting refuses it. -/
theorem Options.quantitative_solve_tower_ne_ok :
    (Game.tower Float).Valid ∧ (∀ v < (Game.tower Float).size, (Game.tower Float).owner v ≠ .stochastic) ∧
      (∀ v < (Game.tower Float).size, (Game.tower Float).priority v < Nat.pow 2 64 - 2) ∧
      (∃ r, QualitativeSolver.solve (.recursive ⟨true⟩) (Game.tower Float) ⟨true, .none⟩ = .ok r ∧ 0 ∈ r.even) ∧
      ∀ o, ({ solver := .lifting } : Options).quantitative.solve (Game.tower Float) .none ≠ .ok o := by
  have hg : (Game.tower Float).Valid := Option.isNone_iff_eq_none.mp (by decide +kernel)
  have hno : ∀ v < (Game.tower Float).size, (Game.tower Float).owner v ≠ .stochastic := by decide
  have hp : ∀ v < (Game.tower Float).size, (Game.tower Float).priority v < Nat.pow 2 64 - 2 := by decide
  have hprecision : 0 < ({ solver := .lifting } : Options).precision := by decide +kernel
  have hroom : ¬ ({ solver := .lifting } : Options).qualitative.HasRoom (Game.tower Float).dual ⟨true, .none⟩ := by
    decide +kernel
  have herr := Improvement.solve_onFloats_of_not_hasRoom ({ solver := .lifting } : Options).tolerance
    ({ solver := .lifting } : Options).tolerance hprecision hg hno hp hroom .none
  refine ⟨hg, hno, hp, ⟨_, Recursive.solve_eq_ok ⟨true⟩ ⟨true, .none⟩ hg, by decide +kernel⟩, fun o ho => ?_⟩
  rw [Options.quantitative_eq, herr] at ho
  cases ho

end OmegaGames
