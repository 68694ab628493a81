import OmegaGames.Proofs.ImprovementDecisions
import OmegaGames.Proofs.UnboundedSearch
import Mathlib.Algebra.Order.Group.Abs
import Mathlib.Algebra.Order.Ring.Unbundled.Rat
import Mathlib.Order.Bounds.Basic

/-!
# Decisions that make progress

The successor of the right value alone is no decision: Even could move in circles at this value, and Odd
could send the play back. Even's decisions are therefore found by a search backwards from the target, in
which an edge of Even comes in only where it keeps the value up to the tolerance. It is an attractor
search among the nodes of positive value that overlooks some edges, so what is known of those searches
carries over.

The order of discovery goes down along the decisions, along all edges of Odd and along some edge of
chance. The visited set is the least one with the closure rules of the search, and a decision that was
recorded stays to the end: a node is visited once, and only nodes without a decision are completed.
-/
namespace OmegaGames

variable {W : Type}

/-! ## The states of a search -/

namespace Front

/-- The states that a search passes while it works off the found nodes from number `next` on. -/
inductive Passes (preds : Predecessors) (visit : Nat → Front → Nat × Nat → Front) :
    Nat → Front → Front → Prop
  | here {next : Nat} {f : Front} : Passes preds visit next f f
  | within {next v : Nat} {f : Front} {es : List (Nat × Nat)} (hfound : f.found[next]? = some v)
      (hes : es <+: preds.of v) : Passes preds visit next f (es.foldl (visit v) f)
  | later {next v : Nat} {f f' : Front} (hfound : f.found[next]? = some v)
      (hrest : Passes preds visit (next + 1) ((preds.of v).foldl (visit v) f) f') :
      Passes preds visit next f f'

theorem Drains.passes {preds : Predecessors} {visit : Nat → Front → Nat × Nat → Front} {next : Nat}
    {f f' : Front} (h : Drains preds visit next f f') : Passes preds visit next f f' := by
  induction h with
  | done => exact .here
  | visit hfound _ ih => exact .later hfound ih

section Related

variable {preds : Predecessors} {visit : Nat → Front → Nat × Nat → Front} {R : Front → Front → Prop}
  (hrefl : ∀ f, R f f) (htrans : ∀ {f f' f''}, R f f' → R f' f'' → R f f'')
  (hvisit : ∀ v f, ∀ e ∈ preds.of v, R f (visit v f e))

include hrefl htrans hvisit

private theorem related_foldl {v : Nat} (f : Front) {es : List (Nat × Nat)}
    (hes : ∀ e ∈ es, e ∈ preds.of v) : R f (es.foldl (visit v) f) :=
  List.foldlRecOn es (visit v) (hrefl f) fun f' hf' e he => htrans hf' (hvisit v f' e (hes e he))

private theorem Drains.related {next : Nat} {f f' : Front} (h : Drains preds visit next f f') : R f f' := by
  induction h with
  | done => exact hrefl _
  | visit _ _ ih => exact htrans (related_foldl hrefl htrans hvisit _ fun _ he => he) ih

/-- A relation that every visit respects holds from the start to every state on the way and from there to
the end. -/
theorem Passes.related {next : Nat} {f f' f'' : Front} (h : Passes preds visit next f f')
    (hd : Drains preds visit next f f'') : R f f' ∧ R f' f'' := by
  induction h with
  | here => exact ⟨hrefl _, hd.related hrefl htrans hvisit⟩
  | @within next v f es hfound hes =>
    obtain ⟨rest, hrest⟩ := hes
    have hpart : R f (es.foldl (visit v) f) := related_foldl hrefl htrans hvisit f
      fun e he => hrest ▸ List.mem_append_left _ he
    cases hd with
    | done hend => cases hend.symm.trans hfound
    | visit hfound' hd =>
      cases hfound.symm.trans hfound'
      rw [← hrest, List.foldl_append] at hd
      refine ⟨hpart, htrans ?_ (hd.related hrefl htrans hvisit)⟩
      exact related_foldl hrefl htrans hvisit _ fun e he => hrest ▸ List.mem_append_right _ he
  | later hfound _ ih =>
    cases hd with
    | done hend => cases hend.symm.trans hfound
    | visit hfound' hd =>
      cases hfound.symm.trans hfound'
      obtain ⟨hbefore, hafter⟩ := ih hd
      exact ⟨htrans (related_foldl hrefl htrans hvisit _ fun _ he => he) hbefore, hafter⟩

end Related

end Front

namespace ValueIteration

open Scalar

variable [Scalar W]

def Positive (values : Array W) (u : Nat) : Prop := le (valueAt values u) zero = false

def Close (s : ValueIteration W) (values : Array W) (u t : Nat) : Prop :=
  lt s.tolerance (distance (valueAt values u) (valueAt values t)) = false

instance (values : Array W) (u : Nat) : Decidable (Positive values u) :=
  inferInstanceAs (Decidable (_ = false))

instance (s : ValueIteration W) (values : Array W) (u t : Nat) : Decidable (s.Close values u t) :=
  inferInstanceAs (Decidable (_ = false))

theorem positive_iff (values : Array Rat) (u : Nat) : Positive values u ↔ 0 < valueAt values u := by
  rw [Positive, ← not_le]
  exact decide_eq_false_iff_not

theorem close_iff (s : ValueIteration Rat) (values : Array Rat) (u t : Nat) :
    s.Close values u t ↔ |valueAt values u - valueAt values t| ≤ s.tolerance := by
  have habs : distance (valueAt values u) (valueAt values t) = |valueAt values u - valueAt values t| := by
    change (if _ < (0 : Rat) then _ else _) = _
    split
    · rename_i h
      exact (abs_of_neg h).symm
    · rename_i h
      exact (abs_of_nonneg (not_lt.mp h)).symm
  rw [Close, habs, ← not_lt]
  exact decide_eq_false_iff_not

/-! ## What one step can do -/

/-- What taking in the edge of `u` at position `i` into the visited node `v` can lead to. -/
inductive Follows (s : ValueIteration W) (g : Game W) (values : Array W) (v : Nat) (f : Front) (u i : Nat) :
    Front → Prop
  | settled (h : u ∈ f.reached ∨ ¬Positive values u) : Follows s g values v f u i f
  | refused (ho : g.owner u = .even) (hc : ¬s.Close values u v) : Follows s g values v f u i f
  | decided (hr : u ∉ f.reached) (hp : Positive values u) (ho : g.owner u = .even)
      (hc : s.Close values u v) : Follows s g values v f u i ((f.record u i).join u)
  | waiting (hr : u ∉ f.reached) (hp : Positive values u) (ho : g.owner u = .odd)
      (hm : (f.count u).missing u ≠ 0) : Follows s g values v f u i (f.count u)
  | forced (hr : u ∉ f.reached) (hp : Positive values u) (ho : g.owner u = .odd)
      (hm : (f.count u).missing u = 0) : Follows s g values v f u i ((f.count u).join u)
  | chance (hr : u ∉ f.reached) (hp : Positive values u) (ho : g.owner u = .stochastic) :
      Follows s g values v f u i (f.join u)

section Step

variable (s : ValueIteration W) (g : Game W) (values : Array W) (v : Nat) (f : Front)

theorem follows_follow (u i : Nat) : s.Follows g values v f u i (s.follow g values v f (u, i)) := by
  rw [follow]
  split
  · rename_i hskip
    rw [Bool.or_eq_true] at hskip
    exact .settled (hskip.imp_right fun hle hp => by cases hle.symm.trans hp)
  · rename_i hskip
    rw [Bool.or_eq_true, not_or, Bool.not_eq_true (le _ _)] at hskip
    obtain ⟨hr, hp⟩ := hskip
    split
    · rename_i ho
      split
      · rename_i hfar
        exact .refused ho fun hc => by cases hfar.symm.trans hc
      · rename_i hnear
        exact .decided hr hp ho (Bool.eq_false_iff.mpr hnear)
    · rename_i ho
      dsimp only
      split
      · rename_i hm
        exact .waiting hr hp ho hm.ne'
      · rename_i hm
        exact .forced hr hp ho (Nat.eq_zero_of_not_pos hm)
    · rename_i ho
      exact .chance hr hp ho

theorem found_prefix_follow (e : Nat × Nat) :
    f.found.toList <+: (s.follow g values v f e).found.toList := by
  have h := s.follows_follow g values v f e.1 e.2
  generalize s.follow g values v f e = f' at h
  cases h <;> simp [Front.record, Front.join, Front.count]

def admits (e : Nat × Nat) : Bool := decide (g.owner e.1 = .even → s.Close values e.1 v)

omit f in
theorem admits_iff (u i : Nat) :
    s.admits g values v (u, i) = true ↔ (g.owner u = .even → s.Close values u v) := decide_eq_true_iff

end Step

/-- The nodes that the search does not visit, as their value is not positive. -/
def idle (g : Game W) (values : Array W) : NodeSet :=
  .ofPred g.size fun v => le (valueAt values v) zero

theorem mem_idle {g : Game W} {values : Array W} {u : Nat} (hu : u < g.size) :
    u ∈ idle g values ↔ ¬Positive values u := by
  simp [idle, Positive, hu]

/-! ## The search as an attractor search -/

section Search

variable {s : ValueIteration W} {g : Game W} {target : NodeSet} {values : Array W} {σ : Strategy}
  {es : List (Nat × Nat)} {f : Front} {u i v : Nat}

/-- For a node of Even or of chance the first edge is the last one that is missing. -/
theorem missing_count_of_drawn (h : Pulled g target (.full g.size) (idle g values) .even σ es f)
    (hu : u < g.size) (hr : u ∉ f.reached) (hp : Positive values u)
    (ho : g.owner u = .even ∨ g.owner u = .stochastic) : (f.count u).missing u = 0 := by
  obtain ⟨hsum, -⟩ := h.waiting u (NodeSet.mem_full.mpr hu) hr fun hb => (mem_idle hu).mp hb hp
  rw [Game.needed, if_pos ho] at hsum
  rw [Front.missing_count, if_pos rfl]
  omega

theorem pulled_follow (h : Pulled g target (.full g.size) (idle g values) .even σ es f)
    (he : g.succ? u i = some v) (hv : v ∈ f.reached) (hnew : (u, i) ∉ es) :
    Pulled g target (.full g.size) (idle g values) .even σ
      (es ++ [(u, i)].filter (s.admits g values v)) (s.follow g values v f (u, i)) := by
  have hu : u < g.size := g.lt_size_of_mem_succs (g.mem_succs_of_succ? he)
  have hfull : u ∈ NodeSet.full g.size := NodeSet.mem_full.mpr hu
  have hb : Positive values u → u ∉ idle g values := fun hp hb => (mem_idle hu).mp hb hp
  have htake : (g.owner u = .even → s.Close values u v) →
      [(u, i)].filter (s.admits g values v) = [(u, i)] := fun hc =>
    List.filter_eq_self.mpr fun e he => by
      rw [List.mem_singleton.mp he, admits_iff]
      exact hc
  have hleave : ¬(g.owner u = .even → s.Close values u v) →
      [(u, i)].filter (s.admits g values v) = [] := fun hc =>
    List.filter_eq_nil_iff.mpr fun e he => by
      rwa [List.mem_singleton.mp he, admits_iff]
  have hstep := s.follows_follow g values v f u i
  generalize s.follow g values v f (u, i) = f' at hstep
  cases hstep with
  | settled hskip =>
    by_cases hc : g.owner u = .even → s.Close values u v
    · rw [htake hc]
      exact h.skip he hv hnew (Or.inr (hskip.imp_right (mem_idle hu).mpr))
    · rwa [hleave hc, List.append_nil]
  | refused ho hc => rwa [hleave fun hall => hc (hall ho), List.append_nil]
  | decided hr hp ho hc =>
    -- the counter stays where it is, but that of a visited node is not read again
    rw [htake fun _ => hc]
    refine h.attracted ?_ hu hr he hv hnew hfull (hb hp) (missing_count_of_drawn h hu hr hp (Or.inl ho))
    constructor <;> simp [Front.record, Front.join, Front.missing, ho]
  | waiting hr hp ho hm =>
    rw [htake fun heven => by cases ho.symm.trans heven]
    exact h.wait he hv hnew hm
  | forced hr hp ho hm =>
    rw [htake fun heven => by cases ho.symm.trans heven]
    refine h.attracted ?_ hu hr he hv hnew hfull (hb hp) hm
    constructor
    case missing =>
      intro w hw
      exact (f.missing_count u w).trans (if_neg hw.symm)
    all_goals simp [Front.join, Front.count, ho]
  | chance hr hp ho =>
    rw [htake fun heven => by cases ho.symm.trans heven]
    refine h.attracted ?_ hu hr he hv hnew hfull (hb hp) (missing_count_of_drawn h hu hr hp (Or.inr ho))
    constructor <;> simp [Front.join, Front.missing, ho]

theorem takes_follow : Takes g target (.full g.size) (idle g values) .even σ (s.admits g values)
    (s.follow g values) where
  grows := s.found_prefix_follow g values
  step := pulled_follow

def outset (g : Game W) (target : NodeSet) : Front :=
  { reached := target
    remaining := Array.ofFn fun v : Fin g.size => if g.owner v = .odd then g.degree v else 1
    found := target.toList.toArray
    strategy := remain g target (.blank g.size) }

omit [Scalar W] in
/-- All edges stay in a closed game, so a node of Odd needs as many edges as it has. -/
theorem outset_eq_seed (hg : g.isClosed = true) (ht : target.range = g.size) :
    outset g target =
      g.arena.seed target (.full g.size) .even (remain g target (.blank g.size)) := by
  have hmem : ∀ v, v ∈ NodeSet.full g.size ∧ v ∈ target ↔ v ∈ target := fun v =>
    ⟨And.right, fun hv => ⟨NodeSet.mem_full.mpr (ht ▸ NodeSet.lt_range hv), hv⟩⟩
  have hreached : target =
      .ofPred g.size fun v => (NodeSet.full g.size).contains v && target.contains v := by
    refine NodeSet.ext_range (by simp [ht]) fun v hv => ?_
    simp [NodeSet.mem_iff, ht ▸ hv]
  have hfound : target = (NodeSet.full g.size).inter target :=
    NodeSet.ext_mem (by simp [ht]) fun v => by rw [NodeSet.mem_inter, hmem]
  have hneeded : ∀ v, (if g.owner v = .odd then g.degree v else 1) =
      if g.owner v = .even ∨ g.owner v = .stochastic then 1
      else ((g.succs v).filter (NodeSet.full g.size).contains).length := by
    intro v
    have hall : (g.succs v).filter (NodeSet.full g.size).contains = g.succs v :=
      List.filter_eq_self.mpr fun t ht => NodeSet.mem_full.mpr (g.isClosed_iff.mp hg v t ht)
    rw [hall, g.length_succs]
    cases g.owner v <;> rfl
  rw [Arena.seed, outset]
  congr 1
  · exact congrArg Array.ofFn (funext fun v => hneeded v)
  · exact congrArg (fun s : NodeSet => s.toList.toArray) hfound

def search (s : ValueIteration W) (g : Game W) (target : NodeSet) (values : Array W) : Front :=
  s.progress g.arena target values (remain g target (.blank g.size))

theorem pulled_search (s : ValueIteration W) (values : Array W) (hg : g.isClosed = true)
    (ht : target.range = g.size) :
    Pulled g target (.full g.size) (idle g values) .even (remain g target (.blank g.size))
      (g.admitted (s.admits g values) (s.search g target values).found.toList)
      (s.search g target values) := by
  have hseed : Pulled g target (.full g.size) (idle g values) .even
      (remain g target (.blank g.size)) [] (outset g target) := by
    rw [outset_eq_seed hg ht]
    exact Pulled.seed (by simp)
  obtain ⟨f, hf, h⟩ := takes_follow.drain g.size 0 (by simpa [Game.admitted] using hseed) (by omega)
  have heq : s.search g target values = f := hf
  rw [heq]
  exact h

theorem drains_search (s : ValueIteration W) (values : Array W) (hg : g.isClosed = true)
    (ht : target.range = g.size) :
    Front.Drains g.predecessors (s.follow g values) 0 (outset g target) (s.search g target values) := by
  have hle : (s.search g target values).found.size ≤ 0 + g.size := by
    simpa using (pulled_search s values hg ht).length_found_le
  exact Front.drains_drain g.size hle

end Search

/-! ## Recorded decisions -/

/-- What holds of the decisions at all times: they were made at visited nodes of Even, and outside of the
target for successors of the same value. -/
structure Recorded (s : ValueIteration W) (g : Game W) (target : NodeSet) (values : Array W) (f : Front) :
    Prop where
  range : f.reached.range = g.size
  visited : ∀ u i, f.strategy.get u = some i → u ∈ f.reached ∧ g.owner u = .even
  close : ∀ u i t, f.strategy.get u = some i → u ∉ target → g.succ? u i = some t → s.Close values u t

/-- No decision is changed on the way from one state to another. -/
def Keeps (s : ValueIteration W) (g : Game W) (target : NodeSet) (values : Array W) (f f' : Front) : Prop :=
  s.Recorded g target values f →
    s.Recorded g target values f' ∧ ∀ u i, f.strategy.get u = some i → f'.strategy.get u = some i

section Decisions

variable {s : ValueIteration W} {g : Game W} {target : NodeSet} {values : Array W} {f : Front}
  {u i v : Nat}

theorem Keeps.refl (f : Front) : s.Keeps g target values f f := fun h => ⟨h, fun _ _ hi => hi⟩

theorem Keeps.trans {f' f'' : Front} (h : s.Keeps g target values f f')
    (h' : s.Keeps g target values f' f'') : s.Keeps g target values f f'' := by
  intro hf
  obtain ⟨hf', hkeep⟩ := h hf
  obtain ⟨hf'', hkeep'⟩ := h' hf'
  exact ⟨hf'', fun u i hi => hkeep' u i (hkeep u i hi)⟩

theorem keeps_count (f : Front) (u : Nat) : s.Keeps g target values f (f.count u) :=
  fun h => ⟨⟨h.range, h.visited, h.close⟩, fun _ _ hi => hi⟩

/-- A node is visited without a decision. -/
theorem keeps_join (f : Front) (hu : u < g.size) : s.Keeps g target values f (f.join u) := by
  intro h
  refine ⟨{ h with range := ?_, visited := fun w j hj => ?_ }, fun _ _ hi => hi⟩
  · simpa [Front.join] using h.range
  · obtain ⟨hw, ho⟩ := h.visited w j hj
    exact ⟨(NodeSet.mem_insert (h.range ▸ hu)).mpr (Or.inl hw), ho⟩

/-- A node is visited and gets its decision. -/
theorem keeps_record_join (hr : u ∉ f.reached) (he : g.succ? u i = some v) (ho : g.owner u = .even)
    (hc : s.Close values u v) : s.Keeps g target values f ((f.record u i).join u) := by
  intro h
  have hu : u < g.size := g.lt_size_of_mem_succs (g.mem_succs_of_succ? he)
  have hmem : ∀ w, w ∈ ((f.record u i).join u).reached ↔ w ∈ f.reached ∨ w = u := fun w =>
    NodeSet.mem_insert (s := f.reached) (h.range ▸ hu)
  have hget : ∀ w j, ((f.record u i).join u).strategy.get w = some j →
      (w = u ∧ j = i) ∨ f.strategy.get w = some j := by
    intro w j hj
    have hset : (f.strategy.set u i).get w = some j := hj
    rw [Strategy.get_set] at hset
    split at hset
    · rename_i huw
      exact Or.inl ⟨huw.1.symm, (Option.some.inj hset).symm⟩
    · exact Or.inr hset
  refine ⟨{ range := ?range, visited := ?visited, close := ?close }, ?keep⟩
  case range => simpa [Front.record, Front.join] using h.range
  case visited =>
    intro w j hj
    rcases hget w j hj with ⟨rfl, -⟩ | hj
    · exact ⟨(hmem w).mpr (Or.inr rfl), ho⟩
    · obtain ⟨hw, ho⟩ := h.visited w j hj
      exact ⟨(hmem w).mpr (Or.inl hw), ho⟩
  case close =>
    intro w j t hj ht hsucc
    rcases hget w j hj with ⟨rfl, rfl⟩ | hj
    · cases he.symm.trans hsucc
      exact hc
    · exact h.close w j t hj ht hsucc
  case keep =>
    intro w j hj
    -- an unvisited node has no decision that could be lost
    have hwu : u ≠ w := fun huw => hr (huw ▸ (h.visited w j hj).1)
    exact (Strategy.get_set f.strategy u w i).trans ((if_neg fun hw => hwu hw.1).trans hj)

theorem keeps_follow (he : g.succ? u i = some v) :
    s.Keeps g target values f (s.follow g values v f (u, i)) := by
  have hu : u < g.size := g.lt_size_of_mem_succs (g.mem_succs_of_succ? he)
  have hstep := s.follows_follow g values v f u i
  generalize s.follow g values v f (u, i) = f' at hstep
  cases hstep with
  | settled => exact .refl f
  | refused => exact .refl f
  | decided hr hp ho hc => exact keeps_record_join hr he ho hc
  | waiting => exact keeps_count f u
  | forced => exact (keeps_count f u).trans (keeps_join _ hu)
  | chance => exact keeps_join f hu

omit [Scalar W] in
theorem remain_induction {P : Strategy → Prop} {σ : Strategy}
    (hset : ∀ τ v i, P τ → v ∈ target → g.owner v = .even → P (τ.set v i)) (hσ : P σ) :
    P (remain g target σ) := by
  refine List.foldlRecOn _ _ hσ fun τ hτ v hv => ?_
  split
  · rename_i ho
    exact hset τ v _ hτ ((NodeSet.mem_toList _ _).mp hv) ho
  · exact hτ

omit [Scalar W] in
@[simp] theorem size_remain (σ : Strategy) : (remain g target σ).size = σ.size :=
  remain_induction (P := fun τ => τ.size = σ.size) (fun τ v i hτ _ _ => (τ.size_set v i).trans hτ) rfl

omit [Scalar W] in
/-- Before the search there are decisions inside of the target only. -/
theorem mem_of_get_remain {n : Nat} (h : (remain g target (.blank n)).get u = some i) :
    u ∈ target ∧ g.owner u = .even := by
  refine remain_induction (P := fun τ => ∀ u i, τ.get u = some i → u ∈ target ∧ g.owner u = .even)
    (fun τ v j hτ hv ho w k hw => ?_) (fun w k hw => ?_) u i h
  · rw [Strategy.get_set] at hw
    split at hw
    · rename_i hvw
      exact hvw.1 ▸ ⟨hv, ho⟩
    · exact hτ w k hw
  · rw [Strategy.get_blank] at hw
    cases hw

theorem recorded_outset (ht : target.range = g.size) :
    s.Recorded g target values (outset g target) where
  range := ht
  visited _ _ hi := mem_of_get_remain hi
  close _ _ _ hi hu := absurd (mem_of_get_remain hi).1 hu

theorem keeps_search (hg : g.isClosed = true) (ht : target.range = g.size)
    (h : Front.Passes g.predecessors (s.follow g values) 0 (outset g target) f) :
    s.Recorded g target values f ∧ s.Keeps g target values f (s.search g target values) := by
  obtain ⟨hbefore, hafter⟩ := h.related (R := s.Keeps g target values) Keeps.refl Keeps.trans
    (fun v f e he => keeps_follow (Game.succ?_of_mem_predecessors he)) (drains_search s values hg ht)
  exact ⟨(hbefore (recorded_outset ht)).1, hafter⟩

/-- A decision of Even is not made again where the others are completed. -/
theorem get_foldl_complete {request : Request} {σ : Strategy} (ho : g.owner u = .even)
    (hi : σ.get u = some i) (vs : List Nat) :
    (vs.foldl (complete g values request) σ).get u = some i := by
  refine List.foldlRecOn (motive := fun τ : Strategy => τ.get u = some i) _ _ hi fun τ hτ v _ => ?_
  have hset : u ≠ v → ∀ j, (τ.set v j).get u = some i := fun huv j =>
    (Strategy.get_set τ v u j).trans ((if_neg fun hv => huv hv.1.symm).trans hτ)
  rw [complete]
  split
  · split
    · rename_i hnone
      refine hset (fun huv => ?_) _
      subst huv
      simp [hτ] at hnone
    · exact hτ
  · rename_i hodd
    split
    · refine hset (fun huv => ?_) _
      subst huv
      cases ho.symm.trans hodd
    · exact hτ
  · exact hτ

theorem get_strategy {request : Request} (hq : request.even = true) (ho : g.owner u = .even)
    (hi : (s.search g target values).strategy.get u = some i) :
    (s.strategy g.arena target values request).get u = some i := by
  rw [strategy, if_pos hq]
  exact get_foldl_complete ho hi _

end Decisions

/-! ## What the search achieves -/

/-- Decisions by which the order of discovery goes down to the target. Every visited node was found once
and, outside of the target, has a positive value. A node of Odd is visited by its edges, so it has some. -/
structure Advances (s : ValueIteration W) (g : Game W) (target : NodeSet) (values : Array W)
    (σ : Strategy) (f : Front) : Prop where
  once : f.found.toList.Nodup
  found : ∀ v, v ∈ f.found.toList ↔ v ∈ f.reached
  positive : ∀ u ∈ f.reached, u ∉ target → Positive values u
  even : ∀ u ∈ f.reached, u ∉ target → g.owner u = .even → ∃ i t, σ.get u = some i ∧
    g.succ? u i = some t ∧ t ∈ f.reached ∧ f.rank t < f.rank u ∧ s.Close values u t
  odd : ∀ u ∈ f.reached, u ∉ target → g.owner u = .odd →
    g.succs u ≠ [] ∧ ∀ t ∈ g.succs u, t ∈ f.reached ∧ f.rank t < f.rank u
  chance : ∀ u ∈ f.reached, u ∉ target → g.owner u = .stochastic →
    ∃ t ∈ g.succs u, t ∈ f.reached ∧ f.rank t < f.rank u

/-- A set with the target that takes in every node of positive value with an edge of Even that keeps the
value, all edges of Odd (if there are any) or an edge of chance into it. -/
structure Absorbs (s : ValueIteration W) (g : Game W) (target : NodeSet) (values : Array W) (A : Set Nat) :
    Prop where
  seeded : ∀ v ∈ target, v ∈ A
  even : ∀ u, Positive values u → g.owner u = .even → (∃ t ∈ g.succs u, t ∈ A ∧ s.Close values u t) → u ∈ A
  odd : ∀ u, Positive values u → g.owner u = .odd → g.succs u ≠ [] → (∀ t ∈ g.succs u, t ∈ A) → u ∈ A
  chance : ∀ u, Positive values u → g.owner u = .stochastic → (∃ t ∈ g.succs u, t ∈ A) → u ∈ A

section Achieved

variable {s : ValueIteration W} {g : Game W} {target : NodeSet} {values : Array W}

theorem advances_search (hg : g.isClosed = true) (ht : target.range = g.size) {σ : Strategy}
    (hσ : ∀ u i, (s.search g target values).strategy.get u = some i → σ.get u = some i) :
    s.Advances g target values σ (s.search g target values) := by
  have h := pulled_search s values hg ht
  have hrec : s.Recorded g target values (s.search g target values) :=
    ((keeps_search hg ht .here).2 (recorded_outset ht)).1
  refine { once := h.nodup, found := h.mem_found, positive := ?_, even := ?_, odd := ?_
           chance := h.chance }
  · intro u hu hut
    have hus : u < g.size := h.range ▸ NodeSet.lt_range hu
    exact not_not.mp (mt (mem_idle hus).mpr (h.free u hu hut))
  · intro u hu hut ho
    obtain ⟨i, t, hi, htr, hlt, hget⟩ := h.own u hu hut ho
    have hsize : u < (remain g target (.blank g.size)).size := by
      rw [size_remain, Strategy.size_blank, ← h.range]
      exact NodeSet.lt_range hu
    exact ⟨i, t, hσ u i (hget hsize), hi, htr, hlt, hrec.close u i t (hget hsize) hut hi⟩
  · intro u hu hut ho
    obtain ⟨⟨t, hst, -⟩, hall⟩ := h.other u hu hut (by simp [ho]) (by simp [ho])
    refine ⟨List.ne_nil_of_mem hst, fun t hst => hall t hst ?_⟩
    exact NodeSet.mem_full.mpr (g.isClosed_iff.mp hg u t hst)

/-- Going down in the order of discovery, every visited node is in every set with the closure rules. -/
theorem Advances.subset_of_absorbs {σ : Strategy} {f : Front} (h : s.Advances g target values σ f)
    {A : Set Nat} (hA : s.Absorbs g target values A) {v : Nat} (hv : v ∈ f.reached) : v ∈ A := by
  induction hr : f.rank v using Nat.strong_induction_on generalizing v with
  | _ n ih =>
    subst hr
    by_cases ht : v ∈ target
    · exact hA.seeded v ht
    have hp := h.positive v hv ht
    cases ho : g.owner v with
    | even =>
      obtain ⟨i, t, -, hi, htr, hlt, hc⟩ := h.even v hv ht ho
      exact hA.even v hp ho ⟨t, g.mem_succs_of_succ? hi, ih _ hlt htr rfl, hc⟩
    | odd =>
      obtain ⟨hne, hall⟩ := h.odd v hv ht ho
      exact hA.odd v hp ho hne fun t hst => ih _ (hall t hst).2 (hall t hst).1 rfl
    | stochastic =>
      obtain ⟨t, hst, htr, hlt⟩ := h.chance v hv ht ho
      exact hA.chance v hp ho ⟨t, hst, ih _ hlt htr rfl⟩

/-- At the end a node of Even or of chance has been drawn in by every edge that comes in. -/
theorem mem_reached_search (hg : g.isClosed = true) (ht : target.range = g.size) {u t : Nat}
    (hp : Positive values u) (ho : g.owner u = .even ∨ g.owner u = .stochastic) (hst : t ∈ g.succs u)
    (htr : t ∈ (s.search g target values).reached) (hc : g.owner u = .even → s.Close values u t) :
    u ∈ (s.search g target values).reached := by
  have h := pulled_search s values hg ht
  have hu : u < g.size := g.lt_size_of_mem_succs hst
  obtain ⟨i, hi⟩ := (g.mem_succs_iff u t).mp hst
  by_contra hr
  refine h.notMem_of_waiting (NodeSet.mem_full.mpr hu) hr (fun hb => (mem_idle hu).mp hb hp) ho i ?_
  exact h.mem_admitted hi htr ((s.admits_iff g values t u i).mpr hc)

/-- A node of Odd that waits to the end has a successor that was not visited. -/
theorem exists_notMem_reached_search (hg : g.isClosed = true) (ht : target.range = g.size) {u : Nat}
    (hp : Positive values u) (ho : g.owner u = .odd) (hne : g.succs u ≠ [])
    (hr : u ∉ (s.search g target values).reached) :
    ∃ t ∈ g.succs u, t ∉ (s.search g target values).reached := by
  have h := pulled_search s values hg ht
  obtain ⟨t, hst⟩ := List.exists_mem_of_ne_nil _ hne
  have hu : u < g.size := g.lt_size_of_mem_succs hst
  have htn : t ∈ NodeSet.full g.size := NodeSet.mem_full.mpr (g.isClosed_iff.mp hg u t hst)
  obtain ⟨i, w, hi, -, hout⟩ := h.exists_notMem_of_waiting (NodeSet.mem_full.mpr hu) hr
    (fun hb => (mem_idle hu).mp hb hp) (by simp [ho]) (by simp [ho]) ⟨t, hst, htn⟩
  refine ⟨w, g.mem_succs_of_succ? hi, fun hw => hout (h.mem_admitted hi hw ?_)⟩
  exact (s.admits_iff g values w u i).mpr fun heven => by cases ho.symm.trans heven

theorem absorbs_search (hg : g.isClosed = true) (ht : target.range = g.size) :
    s.Absorbs g target values (s.search g target values).reached.toSet := by
  refine { seeded := fun v hv => ?seeded, even := ?even, odd := ?odd, chance := ?chance }
  case seeded =>
    exact (pulled_search s values hg ht).seeded v (NodeSet.mem_full.mpr (ht ▸ NodeSet.lt_range hv)) hv
  case even =>
    rintro u hp ho ⟨t, hst, htr, hc⟩
    exact mem_reached_search hg ht hp (Or.inl ho) hst htr fun _ => hc
  case odd =>
    intro u hp ho hne hall
    by_contra hr
    obtain ⟨t, hst, htr⟩ := exists_notMem_reached_search hg ht hp ho hne hr
    exact htr (hall t hst)
  case chance =>
    rintro u hp ho ⟨t, hst, htr⟩
    exact mem_reached_search hg ht hp (Or.inr ho) hst htr fun heven => by cases ho.symm.trans heven

end Achieved

/-- Even's decisions make progress. The search works off all nodes it finds; what it visits is the least
set with its closure rules, its decisions lead down to the target in the order of discovery, and no
decision recorded at any time is changed by a later step of the search or of the completion. -/
theorem strategy_makes_progress (s : ValueIteration W) (g : Game W) (target : NodeSet) (values : Array W)
    (request : Request) (hg : g.isClosed = true) (ht : target.range = g.size)
    (hq : request.even = true) :
    Front.Drains g.predecessors (s.follow g values) 0 (outset g target) (s.search g target values) ∧
      s.Advances g target values (s.strategy g.arena target values request) (s.search g target values) ∧
      IsLeast {A | s.Absorbs g target values A} (s.search g target values).reached.toSet ∧
      ∀ f, Front.Passes g.predecessors (s.follow g values) 0 (outset g target) f →
        ∀ u i, f.strategy.get u = some i →
          (s.strategy g.arena target values request).get u = some i := by
  have hend := drains_search s values hg ht
  have hkept : ∀ f, Front.Passes g.predecessors (s.follow g values) 0 (outset g target) f →
      ∀ u i, f.strategy.get u = some i →
        (s.strategy g.arena target values request).get u = some i := by
    intro f hf u i hi
    obtain ⟨hrec, hkeep⟩ := keeps_search hg ht hf
    exact get_strategy hq (hrec.visited u i hi).2 ((hkeep hrec).2 u i hi)
  have hadvances := advances_search hg ht (hkept _ hend.passes)
  refine ⟨hend, hadvances, ⟨absorbs_search hg ht, ?_⟩, hkept⟩
  intro A hA v hv
  exact hadvances.subset_of_absorbs hA hv

end ValueIteration

/-- Even at node 0 can go to node 3, from where the play comes to the lottery at node 4, or to node 1, where
Odd can choose between the same lottery, at node 2, and sending the play back. Node 5 is the prize. -/
def Game.rebound : Game Rat :=
  ⟨#[⟨.even, 0, [⟨1, 1⟩, ⟨3, 1⟩]⟩, ⟨.odd, 0, [⟨0, 1⟩, ⟨2, 1⟩]⟩, ⟨.stochastic, 0, [⟨5, 1 / 2⟩, ⟨6, 1 / 2⟩]⟩,
    ⟨.even, 0, [⟨4, 1⟩]⟩, ⟨.stochastic, 0, [⟨5, 1 / 2⟩, ⟨6, 1 / 2⟩]⟩, ⟨.even, 0, [⟨5, 1⟩]⟩,
    ⟨.even, 0, [⟨6, 1⟩]⟩]⟩

def Game.reboundValues : Array Rat := #[1 / 2, 1 / 2, 1 / 2, 1 / 2, 1 / 2, 1, 0]

/-- Node 1 has the value of node 3 and is found only after node 0, as all edges of Odd have to come in first.
Even decides on node 3. -/
theorem ValueIteration.strategy_rebound_makes_progress : Game.rebound.isClosed = true ∧
    (NodeSet.ofList 7 [5]).range = Game.rebound.size ∧ Request.both.even = true ∧
    ∃ f i t, f = (⟨0, 1 / 10, 0⟩ : ValueIteration Rat).search Game.rebound (.ofList 7 [5])
        Game.reboundValues ∧ f.found.toList = [5, 2, 4, 3, 0, 1] ∧ i = 1 ∧
      ((⟨0, 1 / 10, 0⟩ : ValueIteration Rat).strategy Game.rebound.arena (.ofList 7 [5])
        Game.reboundValues .both).get 0 = some i ∧
      Game.rebound.succ? 0 i = some t ∧ f.rank t < f.rank 0 ∧ 0 < valueAt Game.reboundValues 0 ∧
      |valueAt Game.reboundValues 0 - valueAt Game.reboundValues t| ≤ 1 / 10 := by
  have hg : Game.rebound.isClosed = true := by decide
  have ht : (NodeSet.ofList 7 [5]).range = Game.rebound.size := NodeSet.range_ofList _ _
  obtain ⟨-, hadvances, -, -⟩ := strategy_makes_progress (⟨0, 1 / 10, 0⟩ : ValueIteration Rat)
    Game.rebound (.ofList 7 [5]) Game.reboundValues .both hg ht rfl
  have hfound : ((⟨0, 1 / 10, 0⟩ : ValueIteration Rat).search Game.rebound (.ofList 7 [5])
      Game.reboundValues).found.toList = [5, 2, 4, 3, 0, 1] := by decide +kernel
  have hmem := (hadvances.found 0).mp (hfound ▸ by decide)
  have hout : 0 ∉ NodeSet.ofList 7 [5] := by decide
  obtain ⟨i, t, hi, hit, -, hlt, hc⟩ := hadvances.even 0 hmem hout (by decide)
  have hone : ((⟨0, 1 / 10, 0⟩ : ValueIteration Rat).strategy Game.rebound.arena (.ofList 7 [5])
      Game.reboundValues .both).get 0 = some 1 := by decide +kernel
  refine ⟨hg, ht, rfl, _, i, t, rfl, hfound, Option.some.inj (hi.symm.trans hone), hi, hit, hlt, ?_, ?_⟩
  · exact (positive_iff _ 0).mp (hadvances.positive 0 hmem hout)
  · exact (close_iff _ _ 0 t).mp hc

end OmegaGames
