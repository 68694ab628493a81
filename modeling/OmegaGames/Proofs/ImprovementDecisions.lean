import OmegaGames.Quantitative.Improvement
import OmegaGames.Proofs.EvenDecisions

/-!
# Decisions of strategy improvement

Value iteration keeps the value one on its target, and it decides on all nodes of the players that it is
asked about. Every decision that strategy improvement takes over names an edge: those of the solvers, those
that value iteration finds, and the switches to better successors. So each phase revises a strategy: it
decides on nodes of Even, and no node loses its decision.
-/
namespace OmegaGames

variable {W : Type} {g : Game W}

theorem Game.Valid.degree_pos [Scalar W] (hg : g.Valid) {v : Nat} (hv : v < g.size) : 0 < g.degree v := by
  rw [← Game.length_succs]
  exact List.length_pos_of_ne_nil (hg.succs_ne_nil hv)

/-! ## Revisions of a strategy -/

theorem Strategy.Fits.blank (n : Nat) : (Strategy.blank n).Fits g := by
  intro v i hi
  rw [Strategy.get_blank] at hi
  cases hi

/-- A strategy that comes from another by decisions in turn, each on a node of a wanted player and for an
edge. -/
inductive Strategy.Revises (g : Game W) (request : Request) (σ : Strategy) : Strategy → Prop
  | refl : Revises g request σ σ
  | set {τ : Strategy} (h : Revises g request σ τ) {v i : Nat} (hw : request.wants (g.owner v) = true)
      (hi : i < g.degree v) : Revises g request σ (τ.set v i)

namespace Strategy.Revises

variable {request : Request} {σ τ υ : Strategy} {v : Nat}

theorem trans (h : σ.Revises g request τ) (h' : τ.Revises g request υ) : σ.Revises g request υ := by
  induction h' with
  | refl => exact h
  | set _ hw hi ih => exact ih.set hw hi

theorem size_eq (h : σ.Revises g request τ) : τ.size = σ.size := by
  induction h with
  | refl => rfl
  | set _ _ _ ih => rw [size_set, ih]

theorem get_eq (h : σ.Revises g request τ) (hw : request.wants (g.owner v) = false) :
    τ.get v = σ.get v := by
  induction h with
  | refl => rfl
  | set _ hw' _ ih =>
    rw [get_set, if_neg, ih]
    rintro ⟨rfl, -⟩
    rw [hw] at hw'
    cases hw'

theorem isSome_get (h : σ.Revises g request τ) (hv : (σ.get v).isSome) : (τ.get v).isSome := by
  induction h with
  | refl => exact hv
  | set _ _ _ ih =>
    rw [get_set]
    split
    · rfl
    · exact ih

theorem fits (h : σ.Revises g request τ) (hσ : σ.Fits g) : τ.Fits g := by
  induction h with
  | refl => exact hσ
  | set _ _ hi ih =>
    intro w j hj
    rw [get_set] at hj
    split at hj
    · rename_i hvw
      cases hj
      exact hvw.1 ▸ hi
    · exact ih w j hj

section Folds

variable {α : Type} {step : Strategy → α → Strategy} {l : List α}
  (hstep : ∀ τ : Strategy, ∀ a ∈ l, τ.Revises g request (step τ a))

include hstep

theorem foldl (σ : Strategy) : σ.Revises g request (l.foldl step σ) :=
  List.foldlRecOn (motive := (σ.Revises g request ·)) _ _ .refl fun τ hτ a ha => hτ.trans (hstep τ a ha)

/-- A node that one of the steps decides on has a decision in the end. -/
theorem isSome_get_foldl {a : α} (ha : a ∈ l)
    (hdecides : ∀ τ : Strategy, τ.size = σ.size → ((step τ a).get v).isSome) :
    ((l.foldl step σ).get v).isSome := by
  obtain ⟨l₁, l₂, rfl⟩ := List.append_of_mem ha
  rw [List.foldl_append, List.foldl_cons]
  have hbefore : σ.Revises g request (l₁.foldl step σ) :=
    foldl (fun τ b hb => hstep τ b (List.mem_append_left _ hb)) σ
  have hafter : ∀ τ : Strategy, ∀ b ∈ l₂, τ.Revises g request (step τ b) := fun τ b hb =>
    hstep τ b (List.mem_append_right _ (List.mem_cons_of_mem _ hb))
  exact (foldl hafter _).isSome_get (hdecides _ hbefore.size_eq)

end Folds

end Strategy.Revises

/-- A strategy that decides on the nodes of the wanted players and on no others, and always for an edge. -/
structure Strategy.Answers (σ : Strategy) (g : Game W) (request : Request) : Prop where
  size_eq : σ.size = g.size
  decided : ∀ v < g.size, (σ.get v).isSome = request.wants (g.owner v)
  fits : σ.Fits g

namespace Strategy.Answers

variable {request : Request} {σ τ : Strategy}

theorem exists_decision (h : σ.Answers g request) {v : Nat} (hv : v < g.size)
    (hw : request.wants (g.owner v) = true) : ∃ i < g.degree v, σ.get v = some i := by
  obtain ⟨i, hi⟩ := Option.isSome_iff_exists.mp ((h.decided v hv).trans hw)
  exact ⟨i, h.fits v i hi, hi⟩

theorem get_eq_none (h : σ.Answers g request) {v : Nat} (hv : v < g.size)
    (hw : request.wants (g.owner v) = false) : σ.get v = none :=
  Option.not_isSome_iff_eq_none.mp (by rw [h.decided v hv, hw]; simp)

theorem of_get (hsize : σ.size = g.size)
    (hd : ∀ v < g.size, request.wants (g.owner v) = true → ∃ i < g.degree v, σ.get v = some i)
    (hn : ∀ v < g.size, request.wants (g.owner v) = false → σ.get v = none) : σ.Answers g request where
  size_eq := hsize
  decided v hv := by
    cases hw : request.wants (g.owner v) with
    | false => rw [hn v hv hw, Option.isSome_none]
    | true =>
      obtain ⟨i, -, hi⟩ := hd v hv hw
      rw [hi, Option.isSome_some]
  fits v i hi := by
    have hv : v < g.size := hsize ▸ lt_size_of_get hi
    cases hw : request.wants (g.owner v) with
    | false =>
      rw [hn v hv hw] at hi
      cases hi
    | true =>
      obtain ⟨j, hj, hget⟩ := hd v hv hw
      exact Option.some.inj (hget.symm.trans hi) ▸ hj

/-- Decisions from scratch answer a request once no wanted node is left out. -/
theorem of_revises_blank (h : (blank g.size).Revises g request σ)
    (hd : ∀ v < g.size, request.wants (g.owner v) = true → (σ.get v).isSome) : σ.Answers g request where
  size_eq := h.size_eq.trans (size_blank _)
  decided v hv := by
    cases hw : request.wants (g.owner v) with
    | false => rw [h.get_eq hw, get_blank, Option.isSome_none]
    | true => exact hd v hv hw
  fits := h.fits (.blank _)

theorem revises (hσ : σ.Answers g request) (h : σ.Revises g request τ) : τ.Answers g request where
  size_eq := h.size_eq.trans hσ.size_eq
  decided v hv := by
    cases hw : request.wants (g.owner v) with
    | false => rw [h.get_eq hw, hσ.decided v hv, hw]
    | true => exact h.isSome_get ((hσ.decided v hv).trans hw)
  fits := h.fits hσ.fits

end Strategy.Answers

/-- Even has decided for edges in the region that it holds. -/
theorem Regions.HeldByEven.exists_decision {r : Regions} (h : r.HeldByEven g) {v : Nat} (hv : v ∈ r.even)
    (ho : g.owner v = .even) : ∃ i < g.degree v, r.decision v = some i := by
  obtain ⟨σ, hσ, hheld⟩ := h.held
  obtain ⟨i, t, hi, ht, -⟩ := hheld.decided v hv ho
  exact ⟨i, g.lt_degree_of_succ? ht, by rw [Regions.decision, hσ, Option.bind_some, hi]⟩

namespace QualitativeSolver

variable [Scalar W] {s : QualitativeSolver} {r : Regions}

theorem degree_pos_of_solve {request : Request} (h : s.solve g ⟨true, request⟩ = .ok r) :
    ∀ v < g.size, 0 < g.degree v := by
  intro v hv
  have hpos := (valid_normalize_of_solve h).degree_pos (v := v) (by rwa [Game.size_normalize])
  rwa [Game.degree_normalize] at hpos

theorem range_even_of_solve (h : s.solve g ⟨true, .evenOnly⟩ = .ok r) : r.even.range = g.size :=
  (heldByEven_normalize_of_solve h).range.trans g.size_normalize

theorem exists_decision_of_solve (h : s.solve g ⟨true, .evenOnly⟩ = .ok r) {v : Nat} (hv : v ∈ r.even)
    (ho : g.owner v = .even) : ∃ i < g.degree v, r.decision v = some i := by
  have hdecided := (heldByEven_normalize_of_solve h).exists_decision hv (by rwa [Game.owner_normalize])
  rwa [Game.degree_normalize] at hdecided

end QualitativeSolver

/-! ## Value iteration -/

namespace ValueIteration

variable [Scalar W]

open Scalar

/-! ### Values -/

section Values

variable {unknown : List Nat} {v : Nat}

theorem valueAt_renew_of_ne (g : Game W) (state : Array W × W) {u : Nat} (h : u ≠ v) :
    valueAt (renew g state u).1 v = valueAt state.1 v := by
  simp only [renew, valueAt, Array.getD_eq_getD_getElem?]
  rw [Array.getElem?_setIfInBounds_ne h]

theorem valueAt_foldl_renew_of_notMem (g : Game W) (h : v ∉ unknown) (state : Array W × W) :
    valueAt (unknown.foldl (renew g) state).1 v = valueAt state.1 v := by
  induction unknown generalizing state with
  | nil => rfl
  | cons u us ih =>
    rw [List.mem_cons, not_or] at h
    rw [List.foldl_cons, ih h.2, valueAt_renew_of_ne g state fun huv => h.1 huv.symm]

theorem valueAt_sweep_of_notMem (g : Game W) (h : v ∉ unknown) (values : Array W) :
    valueAt (sweep g unknown values).1 v = valueAt values v :=
  valueAt_foldl_renew_of_notMem g h (values, zero)

theorem valueAt_settle_of_notMem {precision : W} (h : v ∉ unknown) {sweeps : Nat} {values values' : Array W}
    (hs : settle g precision unknown sweeps values = some values') :
    valueAt values' v = valueAt values v := by
  induction sweeps generalizing values with
  | zero => cases hs
  | succ sweeps ih =>
    have hsweep := valueAt_sweep_of_notMem g h values
    simp only [settle] at hs
    split at hs
    · cases hs
      exact hsweep
    · exact (ih hs).trans hsweep

theorem valueAt_start {target : NodeSet} (hv : v < g.size) :
    valueAt (start g target) v = if target.contains v then one else zero := by
  simp [valueAt, start, Array.getD_eq_getD_getElem?, hv]

end Values

/-! ### Decisions -/

section Decisions

variable {target : NodeSet} {values : Array W} {request : Request} {σ : Strategy}

omit [Scalar W] in
theorem revises_remain (hdeg : ∀ v < g.size, 0 < g.degree v) (ht : target.range = g.size)
    (hq : request.even = true) (σ : Strategy) : σ.Revises g request (remain g target σ) := by
  refine Strategy.Revises.foldl (fun τ v hv => ?_) σ
  have hlt : v < g.size := ht ▸ NodeSet.lt_range ((NodeSet.mem_toList _ _).mp hv)
  split
  · rename_i ho
    refine .set .refl (by rw [ho]; exact hq) ?_
    cases hi : (g.succs v).findIdx? target.contains with
    | none => exact hdeg v hlt
    | some i =>
      obtain ⟨hi, -⟩ := List.findIdx?_eq_some_iff_getElem.mp hi
      rwa [Game.length_succs] at hi
  · exact .refl

theorem revises_follow (s : ValueIteration W) (hq : request.even = true) {f : Front}
    (hf : σ.Revises g request f.strategy) {v u i : Nat} (hi : i < g.degree u) :
    σ.Revises g request (s.follow g values v f (u, i)).strategy := by
  rw [follow]
  split
  · exact hf
  · split
    · rename_i ho
      split
      · exact hf
      · exact hf.set (by rw [ho]; exact hq) hi
    · dsimp only
      split
      · exact hf
      · exact hf
    · exact hf

end Decisions

end ValueIteration

/-- What every visit keeps, working off the found nodes keeps. -/
theorem Front.drain_induction {P : Front → Prop} {preds : Predecessors}
    {visit : Nat → Front → Nat × Nat → Front}
    (hvisit : ∀ v f, ∀ e ∈ preds.of v, P f → P (visit v f e)) (steps next : Nat) {f : Front} (hf : P f) :
    P (f.drain preds visit steps next) := by
  induction steps generalizing next f with
  | zero => exact hf
  | succ steps ih =>
    rw [drain]
    split
    · exact hf
    · rename_i v _
      apply ih
      exact List.foldlRecOn _ _ hf fun f hf e he => hvisit v f e he hf

namespace ValueIteration

variable [Scalar W] {target : NodeSet} {values : Array W} {request : Request} {σ : Strategy}

open Scalar

theorem revises_progress (s : ValueIteration W) (hq : request.even = true) (σ : Strategy) :
    σ.Revises g request (s.progress g.arena target values σ).strategy :=
  Front.drain_induction (P := fun f => σ.Revises g request f.strategy)
    (fun _ _ _ he hf => revises_follow s hq hf (g.lt_degree_of_succ? (Game.succ?_of_mem_predecessors he))) _ _ .refl

theorem revises_complete {v : Nat} (hdeg : 0 < g.degree v) (request : Request) (σ : Strategy) :
    σ.Revises g request (complete g values request σ v) := by
  have hbest : ∀ better : W → W → Bool, firstBest better ((g.succs v).map (valueAt values)) < g.degree v := by
    intro better
    have hlength : ((g.succs v).map (valueAt values)).length = g.degree v := by
      rw [List.length_map, Game.length_succs]
    rw [← hlength] at hdeg ⊢
    exact firstBest_lt better (List.ne_nil_of_length_pos hdeg)
  rw [complete]
  split
  · rename_i ho
    split
    · rename_i hq
      exact .set .refl (by rw [ho]; exact (Bool.and_eq_true_iff.mp hq).1) (hbest _)
    · exact .refl
  · rename_i ho
    split
    · rename_i hq
      exact .set .refl (by rw [ho]; exact hq) (hbest _)
    · exact .refl
  · exact .refl

theorem isSome_get_complete {v : Nat} (hw : request.wants (g.owner v) = true) (hv : v < σ.size) :
    ((complete g values request σ v).get v).isSome := by
  have hset : ∀ i, ((σ.set v i).get v).isSome := fun i => by
    rw [Strategy.get_set, if_pos ⟨rfl, hv⟩, Option.isSome_some]
  rw [complete]
  split
  · rename_i ho
    rw [ho] at hw
    split
    · exact hset _
    · rename_i hnot
      have heven : request.even = true := hw
      rw [heven, Bool.true_and, Option.isNone_iff_eq_none] at hnot
      exact Option.isSome_iff_ne_none.mpr hnot
  · rename_i ho
    rw [ho] at hw
    have hodd : request.odd = true := hw
    rw [if_pos hodd]
    exact hset _
  · rename_i ho
    rw [ho] at hw
    cases hw

/-- Value iteration decides on all nodes of the players that it is asked about. -/
theorem answers_strategy (s : ValueIteration W) (hdeg : ∀ v < g.size, 0 < g.degree v)
    (ht : target.range = g.size) (request : Request) :
    (s.strategy g.arena target values request).Answers g request := by
  have hsearch : (Strategy.blank g.size).Revises g request (if request.even then
      (s.progress g.arena target values (remain g target (.blank g.size))).strategy
      else Strategy.blank g.size) := by
    split
    · rename_i hq
      exact (revises_remain hdeg ht hq _).trans (revises_progress s hq _)
    · exact .refl
  have hcomplete : ∀ τ : Strategy, ∀ v ∈ List.range g.size,
      τ.Revises g request (complete g values request τ v) := fun τ v hv =>
    revises_complete (hdeg v (List.mem_range.mp hv)) request τ
  refine .of_revises_blank (hsearch.trans (.foldl hcomplete _)) fun v hv hw => ?_
  refine Strategy.Revises.isSome_get_foldl hcomplete (List.mem_range.mpr hv) fun τ hτ => ?_
  have hsize : τ.size = g.size := (hτ.trans hsearch.size_eq).trans (Strategy.size_blank _)
  exact isSome_get_complete hw (hsize ▸ hv)

theorem of_solve_eq_ok {s : ValueIteration W} {request : Request} {o : Outlook W}
    (h : s.solve g target request = .ok o) :
    settle g s.precision (unknown g.arena target) s.sweeps (start g target) = some o.values ∧
      o.strategy = if request.any then some (s.strategy g.arena target o.values request) else none := by
  rw [solve] at h
  split at h
  · cases h
  · dsimp only [bind, Except.bind, pure, Except.pure] at h
    split at h
    · cases h
    · rename_i values hvalues
      cases h
      exact ⟨hvalues, rfl⟩

theorem solve_eq_ok (hc : g.isClosed = true) {s : ValueIteration W}
    (h : settle g s.precision (unknown g.arena target) s.sweeps (start g target) = some values)
    (request : Request) : s.solve g target request =
      .ok ⟨values, if request.any then some (s.strategy g.arena target values request) else none⟩ := by
  simp only [solve, hc, h, Bool.not_true, Bool.false_eq_true, if_false]
  rfl

theorem value_of_mem_target {s : ValueIteration W} {request : Request} {o : Outlook W}
    (h : s.solve g target request = .ok o) {v : Nat} (hv : v < g.size) (ht : v ∈ target) :
    o.value v = one := by
  obtain ⟨hvalues, -⟩ := of_solve_eq_ok h
  have hout : v ∉ unknown g.arena target := by
    rw [unknown, NodeSet.mem_toList, ← NodeSet.mem_iff, NodeSet.mem_diff]
    exact fun hmem => hmem.2 ht
  have hkept := valueAt_settle_of_notMem hout hvalues
  rw [valueAt_start hv, if_pos ((NodeSet.mem_iff _ _).mp ht)] at hkept
  exact hkept

theorem exists_decision_of_solve {s : ValueIteration W} (hdeg : ∀ v < g.size, 0 < g.degree v)
    (ht : target.range = g.size) {o : Outlook W} (h : s.solve g target request = .ok o) {v : Nat}
    (hv : v < g.size) (hw : request.wants (g.owner v) = true) : ∃ i < g.degree v, o.decision v = some i := by
  obtain ⟨-, hstrategy⟩ := of_solve_eq_ok h
  have hany : request.any = true := by
    cases ho : g.owner v <;> rw [ho] at hw <;> simp_all [Request.wants, Request.any]
  rw [if_pos hany] at hstrategy
  rw [Outlook.decision, hstrategy]
  exact (answers_strategy s hdeg ht request).exists_decision hv hw

end ValueIteration

/-! ## Improvement -/

namespace Game

theorem origPosition_subgame_lt {R : NodeSet} (hR : R.range = g.size) {k v i : Nat}
    (hk : R.toList[k]? = some v) (hi : i < (g.subgame R).game.degree k) :
    (g.subgame R).origPosition k i < g.degree v := by
  obtain ⟨t, ht⟩ := (g.subgame R).game.exists_succ?_of_lt_degree hi
  exact g.lt_degree_of_succ? (succ?_subgame (lt_size_of_range_eq hR) hk ht).2

theorem origPosition_keepEdges_lt {p : Nat → Nat → Bool} {v i : Nat} (hv : v < g.size)
    (hi : i < (g.keepEdges p).game.degree v) : (g.keepEdges p).origPosition v i < g.degree v := by
  obtain ⟨t, ht⟩ := (g.keepEdges p).game.exists_succ?_of_lt_degree hi
  exact g.lt_degree_of_succ? (succ?_origPosition_restrict lt_degree_of_mem_filter hv ht)

end Game

namespace Improvement

section Adopt

/-- At the chosen nodes of Even there are decisions, and they name edges. -/
def Supplies (g : Game W) (chosen : Nat → Bool) (decision : Nat → Option Nat) : Prop :=
  ∀ v < g.size, g.owner v = .even → chosen v = true → ∃ i < g.degree v, decision v = some i

def adoptNode (sub : Subgame W) (p : Nat → Bool) (decision : Nat → Option Nat) (σ : Strategy) (k : Nat) :
    Strategy :=
  if sub.game.owner k = .even && p k then
    match decision k with
    | some i => σ.set (sub.orig k) (sub.origPosition k i)
    | none => σ
  else σ

theorem adopt_eq (sub : Subgame W) (p : Nat → Bool) (decision : Nat → Option Nat) (σ : Strategy) :
    adopt sub p decision σ = (List.range sub.game.size).foldl (adoptNode sub p decision) σ := rfl

variable {R : NodeSet} (hR : R.range = g.size) {p : Nat → Bool} {decision : Nat → Option Nat}
  (hd : Supplies (g.subgame R).game p decision)

include hR hd

private theorem revises_adoptNode (τ : Strategy) {k : Nat} (hk : k ∈ List.range (g.subgame R).game.size) :
    τ.Revises g .evenOnly (adoptNode (g.subgame R) p decision τ k) := by
  have hk := List.mem_range.mp hk
  rw [adoptNode]
  split
  · rename_i hp
    rw [Bool.and_eq_true, decide_eq_true_eq] at hp
    obtain ⟨i, hi, hik⟩ := hd k hk hp.1 hp.2
    obtain ⟨v, -, hkv⟩ := Game.exists_member hk
    rw [hik, Game.orig_subgame hkv]
    refine .set .refl ?_ (Game.origPosition_subgame_lt hR hkv hi)
    rw [← Game.owner_subgame hkv, hp.1]
    rfl
  · exact .refl

/-- Decisions of a subgame that name edges there name edges of the game. -/
theorem revises_adopt (σ : Strategy) : σ.Revises g .evenOnly (adopt (g.subgame R) p decision σ) :=
  .foldl (fun τ _ hk => revises_adoptNode hR hd τ hk) σ

theorem isSome_get_adopt {σ : Strategy} (hσ : σ.size = g.size) {k v : Nat} (hk : R.toList[k]? = some v)
    (ho : g.owner v = .even) (hp : p k = true) : ((adopt (g.subgame R) p decision σ).get v).isSome := by
  have hlt : k < (g.subgame R).game.size := by
    rw [Game.size_subgame, NodeSet.size]
    exact (List.getElem?_eq_some_iff.mp hk).1
  have hv : v < g.size := hR ▸ NodeSet.lt_range ((NodeSet.mem_toList _ _).mp (List.mem_of_getElem? hk))
  rw [← Game.owner_subgame hk] at ho
  obtain ⟨i, -, hi⟩ := hd k hlt ho hp
  rw [adopt_eq]
  refine Strategy.Revises.isSome_get_foldl (fun τ _ hk => revises_adoptNode hR hd τ hk)
    (List.mem_range.mpr hlt) fun τ hτ => ?_
  rw [adoptNode, if_pos (by simp [ho, hp]), hi, Game.orig_subgame hk]
  dsimp only
  rw [Strategy.get_set, if_pos ⟨rfl, by omega⟩, Option.isSome_some]

end Adopt

variable [Scalar W] {σ : Strategy}

open Scalar ValueIteration

section Supplies

variable {s : Improvement W} {won : Regions} {reached : Outlook W}
  (hwon : s.qualitative.solve g ⟨true, .evenOnly⟩ = .ok won)

include hwon

theorem supplies_first : Supplies g (fun _ => true) (fun _ => some 0) :=
  fun v hv _ _ => ⟨0, QualitativeSolver.degree_pos_of_solve hwon v hv, rfl⟩

theorem supplies_won : Supplies g won.even.contains won.decision :=
  fun _ _ ho hv => QualitativeSolver.exists_decision_of_solve hwon hv ho

theorem supplies_reached (hreached : s.reachOutlook g won.even .evenOnly = .ok reached)
    (chosen : Nat → Bool) : Supplies g chosen reached.decision := by
  rw [reachOutlook] at hreached
  split at hreached
  · rename_i o hsolve
    cases hreached
    intro v hv ho _
    exact exists_decision_of_solve (QualitativeSolver.degree_pos_of_solve hwon)
      (QualitativeSolver.range_even_of_solve hwon) hsolve hv (by rw [ho]; rfl)
  · cases hreached

end Supplies

theorem lt_degree_of_betterSuccessor? {values : Array W} {v i : Nat} {x : W}
    (h : betterSuccessor? g values v = some (i, x)) : i < g.degree v := by
  have hpick : ∀ best, betterSuccessor? g values v = some best → best.1 < g.degree v := by
    refine List.foldlRecOn
      (motive := fun b : Option (Nat × W) => ∀ best, b = some best → best.1 < g.degree v) _ _
      (fun _ h => by cases h) fun b hb e he best hbest => ?_
    rcases ite_eq_iff.mp hbest with ⟨-, hnew⟩ | ⟨-, hold⟩
    · cases hnew
      rw [← Game.length_succs]
      exact (List.getElem?_eq_some_iff.mp (List.mem_zipIdx_iff_getElem?.mp he)).1
    · exact hb best hold
  exact hpick _ h

theorem revises_improveDirectly (s : Improvement W) (values : Array W) (σ : Strategy) :
    σ.Revises g .evenOnly (improveDirectly s g values σ).1 := by
  refine List.foldlRecOn (motive := fun state : Strategy × Bool => σ.Revises g .evenOnly state.1) _ _ .refl
    fun state hstate v _ => ?_
  dsimp only
  split
  · rename_i ho
    split
    · rename_i i x hbetter
      split
      · exact hstate.set (by rw [ho]; rfl) (lt_degree_of_betterSuccessor? hbetter)
      · exact hstate
    · exact hstate
  · exact hstate

theorem revises_improveRegion {s : Improvement W} {values : Array W} {σ' : Strategy} {changed : Bool}
    (h : s.improveRegion g values σ = .ok (σ', changed)) : σ.Revises g .evenOnly σ' := by
  obtain ⟨won, hwon, h⟩ := exists_of_bind_eq_ok h
  dsimp only at h
  split at h
  · cases h
    exact .refl
  · obtain ⟨hfold, -⟩ := Prod.mk.inj (Except.ok.inj h)
    rw [← hfold]
    refine List.foldlRecOn (motive := fun state : Strategy × Bool => σ.Revises g .evenOnly state.1) _ _ .refl ?_
    intro state hstate v hv
    have hmem := (NodeSet.mem_toList _ _).mp hv
    have hlt : v < g.size := by
      have hrange := NodeSet.lt_range hmem
      rwa [QualitativeSolver.range_even_of_solve hwon, Game.keepEdges, Game.size_restrict] at hrange
    split
    · rename_i ho
      obtain ⟨i, hi, hdecision⟩ := QualitativeSolver.exists_decision_of_solve hwon hmem
        (by rwa [Game.keepEdges, Game.owner_restrict hlt])
      rw [hdecision]
      dsimp only
      split
      · exact hstate
      · exact hstate.set (by rw [ho]; rfl) (Game.origPosition_keepEdges_lt hlt hi)
    · exact hstate

end Improvement

end OmegaGames
