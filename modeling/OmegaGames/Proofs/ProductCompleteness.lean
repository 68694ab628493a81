import OmegaGames.Proofs.DescribedAutomata
import OmegaGames.Proofs.ProductExploration
import Mathlib.Data.Set.Card
import Mathlib.Order.Interval.Finset.Nat

/-!
# Exploring all of a product

Exploring expands one node after the other while new nodes are reached. It comes to an end, since only so
many product states fit. If there is room, the nodes are then exactly the product states that a walk
leads to. If there is not, it fails once the limit is reached, in the middle of the initial nodes or of a
node's successors, and all nodes are states that a walk leads to. Exploring once more then fails in the
same way and enters nothing.

Initial model nodes are entered whether or not they exist. Exploring fails at the first one that does not, unless
the limit is reached before.
-/
namespace OmegaGames

open Relation

variable {W L : Type}

def Model.EdgesInRange (m : Model W) : Prop := ∀ node ∈ m.nodes.toList, ∀ e ∈ node.edges, e.target < m.size

def Model.InitialInRange (m : Model W) : Prop := ∀ v ∈ m.initial, v < m.size

/-! ## Product states that walks lead to -/

namespace ExplicitAutomaton

/-- A step of the product along an edge of the model. The automaton takes one of its transitions there,
the first one if it is deterministic, or keeps its state where it does not move. -/
inductive Advances (a : ExplicitAutomaton L) (m : Model W) (moves : Nat → Bool) (s : ProductState) :
    ProductState → Prop
  | stay {node : ModelNode W} {e : Edge W} (hmoves : moves s.model = false)
      (hnode : m.nodes[s.model]? = some node) (he : e ∈ node.edges) :
      Advances a m moves s ⟨e.target, s.automaton⟩
  | move {node : ModelNode W} {e : Edge W} {ts : List Transition} {t : Transition}
      (hmoves : moves s.model = true) (hnode : m.nodes[s.model]? = some node) (he : e ∈ node.edges)
      (hts : a.query? (node.valuation a.expressions) s.automaton = some ts)
      (ht : t ∈ if a.deterministic then ts.take 1 else ts) :
      Advances a m moves s ⟨e.target, t.state⟩

def reachableStates (a : ExplicitAutomaton L) (m : Model W) (moves : Nat → Bool) : Set ProductState :=
  { s | ∃ v ∈ m.initial, ReflTransGen (a.Advances m moves) ⟨v, a.initial⟩ s }

variable {a : ExplicitAutomaton L} {m : Model W} {moves : Nat → Bool}

theorem Advances.automaton_lt (ha : a.Closed) {s t : ProductState} (hs : s.automaton < a.edges.size)
    (h : a.Advances m moves s t) : t.automaton < a.edges.size := by
  cases h with
  | stay _ _ _ => exact hs
  | move _ _ _ hts ht =>
    apply ha.state_lt hts
    split at ht
    · exact List.mem_of_mem_take ht
    · exact ht

theorem Advances.model_lt (hm : m.EdgesInRange) {s t : ProductState} (h : a.Advances m moves s t) :
    t.model < m.size := by
  cases h with
  | stay _ hnode he => exact hm _ (List.mem_of_getElem? (Array.getElem?_toList.trans hnode)) _ he
  | move _ hnode he _ _ => exact hm _ (List.mem_of_getElem? (Array.getElem?_toList.trans hnode)) _ he

theorem automaton_lt_of_mem_reachableStates (ha : a.Closed) {s : ProductState}
    (h : s ∈ a.reachableStates m moves) : s.automaton < a.edges.size := by
  obtain ⟨v, -, hwalk⟩ := h
  induction hwalk with
  | refl => exact ha.initial_lt
  | tail _ hstep ih => exact hstep.automaton_lt ha ih

/-- Only initial model nodes can be missing. -/
theorem model_lt_of_mem_reachableStates (hm : m.EdgesInRange) {s : ProductState}
    (h : s ∈ a.reachableStates m moves) : s.model ∈ m.initial ∨ s.model < m.size := by
  obtain ⟨v, hv, hwalk⟩ := h
  rcases hwalk.cases_tail with rfl | ⟨t, -, hstep⟩
  · exact Or.inl hv
  · exact Or.inr (hstep.model_lt hm)

theorem finite_reachableStates (h : ∀ s ∈ a.reachableStates m moves, s.fits = true) :
    (a.reachableStates m moves).Finite := by
  have hgrid := ((Set.finite_Iio ProductState.halfLimit).prod (Set.finite_Iio ProductState.halfLimit)).image
    fun p => ProductState.mk p.1 p.2
  apply hgrid.subset
  intro s hs
  exact ⟨(s.model, s.automaton), ProductState.fits_iff.mp (h s hs), rfl⟩

end ExplicitAutomaton

namespace ProductGraph

variable [DecidableEq L] {g g' : ProductGraph W (ExplicitAutomaton L)} {s t : ProductState} {n : Nat}

theorem stepsTo_iff {moves : Nat → Bool} {a : ExplicitAutomaton L} {v q : Nat} {node : ModelNode W}
    {steps : List (Nat × Option Nat)} :
    StepsTo moves a v node q a steps ↔
      moves v = false ∧ steps = [(q, none)] ∨
      moves v = true ∧ ∃ ts, a.query? (node.valuation a.expressions) q = some ts ∧
        steps = (if a.deterministic then ts.take 1 else ts).map fun t => (t.state, some t.label) := by
  constructor
  · intro h
    cases h with
    | stay hmoves => exact Or.inl ⟨hmoves, rfl⟩
    | first hmoves hquery hdet =>
      have hdet : a.deterministic = true := hdet
      obtain ⟨ts, hts, hpair⟩ := Option.map_eq_some_iff.mp hquery
      cases hpair
      exact Or.inr ⟨hmoves, _, hts, by simp [hdet]⟩
    | all hmoves hquery hdet =>
      have hdet : a.deterministic = false := hdet
      obtain ⟨ts, hts, hpair⟩ := Option.map_eq_some_iff.mp hquery
      cases hpair
      exact Or.inr ⟨hmoves, _, hts, by simp [hdet]⟩
  · rintro (⟨hmoves, rfl⟩ | ⟨hmoves, ts, hts, rfl⟩)
    · exact .stay hmoves
    · have hquery : Automaton.query? a (node.valuation (Automaton.expressions a)) q = some (a, ts) :=
        Option.map_eq_some_iff.mpr ⟨ts, hts, rfl⟩
      cases hdet : a.deterministic with
      | true => exact .first hmoves hquery hdet
      | false => exact .all hmoves hquery hdet

theorem mem_targets_iff {node : ModelNode W} {steps : List (Nat × Option Nat)} :
    t ∈ targets node steps ↔ ∃ r ∈ steps, ∃ e ∈ node.edges, t = ⟨e.target, r.1⟩ := by
  simp only [targets, List.mem_flatMap, List.mem_map, eq_comm]

theorem step_iff_advances : g.Step s t ↔ g.automaton.Advances g.model g.moves s t := by
  constructor
  · rintro ⟨node, steps, hat, ht⟩
    obtain ⟨hnode, hto⟩ := stepsAt?_eq_some_iff.mp hat
    obtain ⟨r, hr, e, he, rfl⟩ := mem_targets_iff.mp ht
    rcases stepsTo_iff.mp hto with ⟨hmoves, rfl⟩ | ⟨hmoves, ts, hts, rfl⟩
    · rw [List.mem_singleton.mp hr]
      exact .stay hmoves hnode he
    · obtain ⟨tr, htr, rfl⟩ := List.mem_map.mp hr
      exact .move hmoves hnode he hts htr
  · intro h
    cases h with
    | stay hmoves hnode he =>
      refine ⟨_, _, stepsAt?_eq_some_iff.mpr ⟨hnode, stepsTo_iff.mpr (Or.inl ⟨hmoves, rfl⟩)⟩, ?_⟩
      exact mem_targets_iff.mpr ⟨_, List.mem_singleton_self _, _, he, rfl⟩
    | move hmoves hnode he hts ht =>
      refine ⟨_, _, stepsAt?_eq_some_iff.mpr ⟨hnode, stepsTo_iff.mpr (Or.inr ⟨hmoves, _, hts, rfl⟩)⟩, ?_⟩
      exact mem_targets_iff.mpr ⟨_, List.mem_map_of_mem ht, _, he, rfl⟩

theorem reachable_iff : g.Reachable s ↔ s ∈ g.automaton.reachableStates g.model g.moves := by
  have hstep : g.Step = g.automaton.Advances g.model g.moves := by
    funext s t
    exact propext step_iff_advances
  simp only [Reachable, initialStates, List.mem_map, hstep]
  constructor
  · rintro ⟨s₀, ⟨v, hv, rfl⟩, hwalk⟩
    exact ⟨v, hv, hwalk⟩
  · rintro ⟨v, hv, hwalk⟩
    exact ⟨_, ⟨v, hv, rfl⟩, hwalk⟩

/-- A product in which every state that a walk leads to fits and has an automaton state. -/
structure Sound (g : ProductGraph W (ExplicitAutomaton L)) : Prop where
  automaton : g.automaton.Closed
  fits : ∀ s, g.Reachable s → s.fits = true

theorem Sound.continues (h : Sound g) (hc : Continues g g') : Sound g' where
  automaton := by
    rw [hc.later.automaton]
    exact h.automaton
  fits s hs := h.fits s (hc.later.reachable_iff.mp hs)

theorem Sound.exists_opens (h : Sound g) (hs : g.Reachable s) (hn : g.state? n = some s)
    (hmodel : s.model < g.model.size) : ∃ node steps, Opens g n s node g.automaton steps := by
  have hautomaton :=
    ExplicitAutomaton.automaton_lt_of_mem_reachableStates h.automaton (reachable_iff.mp hs)
  have hnode : g.model.nodes[s.model]? = some g.model.nodes[s.model] := Array.getElem?_eq_getElem hmodel
  cases hmoves : g.moves s.model with
  | false => exact ⟨_, _, hn, hnode, stepsTo_iff.mpr (Or.inl ⟨hmoves, rfl⟩)⟩
  | true =>
    obtain ⟨ts, hts⟩ := g.automaton.exists_query?
      (g.model.nodes[s.model].valuation g.automaton.expressions) hautomaton
    exact ⟨_, _, hn, hnode, stepsTo_iff.mpr (Or.inr ⟨hmoves, ts, hts, rfl⟩)⟩

/-! ## The loop -/

section Loop

variable {A : Type} [Automaton A L]

/-- Exploring from a node on, without a bound on the number of steps: it ends after the last node, or
where an expansion fails. -/
inductive Explores : Nat → ProductGraph W A → ProductGraph W A × Except ProductError Nat → Prop
  | done {next : Nat} {g : ProductGraph W A} (h : g.nodeCount ≤ next) : Explores next g (g, .ok g.nodeCount)
  | failed {next : Nat} {g g' : ProductGraph W A} {e : ProductError} (h : next < g.nodeCount)
      (he : g.expand next = (g', .error e)) : Explores next g (g', .error e)
  | expanded {next : Nat} {g g' : ProductGraph W A} {x : Expansion}
      {r : ProductGraph W A × Except ProductError Nat} (h : next < g.nodeCount)
      (he : g.expand next = (g', .ok x)) (hrest : Explores (next + 1) g' r) : Explores next g r

inductive ExploresAll (g : ProductGraph W A) : ProductGraph W A × Except ProductError Nat → Prop
  | failed {g' : ProductGraph W A} {e : ProductError} (h : g.initialNodes = (g', .error e)) :
      ExploresAll g (g', .error e)
  | started {g' : ProductGraph W A} {ns : List Nat} {r : ProductGraph W A × Except ProductError Nat}
      (h : g.initialNodes = (g', .ok ns)) (hrest : Explores 0 g' r) : ExploresAll g r

end Loop

/-- The bound on the number of steps is never reached. -/
theorem Explored.explores_exploreFrom (h : Explored g) {steps next : Nat}
    (hbound : expansionBound ≤ next + steps) : Explores next g (exploreFrom steps next g) := by
  induction steps generalizing next g with
  | zero =>
    have hlt := nodeCount_lt_expansionBound h.distinct
    exact .done (by omega)
  | succ steps ih =>
    rw [exploreFrom]
    by_cases hnext : next < g.nodeCount
    · rw [if_pos hnext]
      have hexpand := (h.expand next).1
      cases hr : g.expand next with
      | mk g' r =>
        rw [hr] at hexpand
        cases r with
        | error e => exact .failed hnext hr
        | ok x => exact .expanded hnext hr (ih hexpand (by omega))
    · rw [if_neg hnext]
      exact .done (Nat.le_of_not_lt hnext)

theorem Explored.exploresAll_explore (h : Explored g) : ExploresAll g g.explore := by
  have hinitial := h.initialNodes.1
  rw [explore]
  cases hr : g.initialNodes with
  | mk g' r =>
    rw [hr] at hinitial
    cases r with
    | error e => exact .failed hr
    | ok ns => exact .started hr (hinitial.explores_exploreFrom (by omega))

/-! ## What exploring leaves -/

/-- The nodes before `next` are there with their model nodes, and so are their successors. -/
def Expanded (next : Nat) (g : ProductGraph W (ExplicitAutomaton L)) : Prop :=
  ∀ n < next, ∃ s, g.state? n = some s ∧ s.model < g.model.size ∧ ∀ t, g.Step s t → t ∈ g.states

/-- How exploring ends: everything is reached, or there is no room for a state that a walk leads to, or the model
node of the next node is missing. -/
inductive Ends (g : ProductGraph W (ExplicitAutomaton L)) : Except ProductError Nat → Prop
  | complete (h : ∀ s, g.Reachable s → s ∈ g.states) (hmodel : ∀ s ∈ g.states, s.model < g.model.size) :
      Ends g (.ok g.nodeCount)
  | full {limit : Nat} {t : ProductState} (hlimit : g.limit = some limit) (hfull : limit ≤ g.nodeCount)
      (ht : g.Reachable t) (hnew : t ∉ g.states) : Ends g (.error (.insufficientStates limit))
  | missing {n : Nat} {s : ProductState} (hs : g.state? n = some s) (hmodel : g.model.size ≤ s.model)
      (hbefore : Expanded n g) : Ends g (.error .noSuchNode)

theorem Continues.step (hc : Continues g g') : g'.Step = g.Step := by
  funext s t
  simp only [Step, hc.later.stepsAt?]

theorem Continues.mem (hc : Continues g g') (h : s ∈ g.states) : s ∈ g'.states :=
  (states_prefix_of_extends hc.keeps).subset h

theorem Expanded.continues {next : Nat} (h : Expanded next g) (hc : Continues g g') : Expanded next g' := by
  intro n hn
  obtain ⟨s, hs, hmodel, hsteps⟩ := h n hn
  refine ⟨s, hc.state? hs, hc.model ▸ hmodel, fun t ht => hc.mem (hsteps t ?_)⟩
  rwa [hc.step] at ht

theorem Expanded.model_lt {next : Nat} (h : Expanded next g) (hall : g.nodeCount ≤ next) (hs : s ∈ g.states) :
    s.model < g.model.size := by
  obtain ⟨n, hn⟩ := exists_state?_of_mem hs
  have hlt := lt_nodeCount_of_state? hn
  obtain ⟨s', hs', hmodel, -⟩ := h n (by omega)
  cases hn.symm.trans hs'
  exact hmodel

theorem Expanded.mem {next : Nat} (h : Expanded next g) (hall : g.nodeCount ≤ next)
    (hinitial : ∀ s ∈ g.initialStates, s ∈ g.states) (hs : g.Reachable s) : s ∈ g.states := by
  obtain ⟨s₀, hs₀, hwalk⟩ := hs
  -- Along the walk: a state that is there has a number before `next`, so its successors are there.
  induction hwalk with
  | refl => exact hinitial s₀ hs₀
  | tail _ hstep ih =>
    obtain ⟨n, hn⟩ := exists_state?_of_mem ih
    have hlt := lt_nodeCount_of_state? hn
    obtain ⟨s', hs', -, hsteps⟩ := h n (by omega)
    cases hn.symm.trans hs'
    exact hsteps _ hstep

theorem Expanded.succ {next : Nat} {x : Expansion} (h : Expanded next g) (hg : Explored g)
    (he : g.expand next = (g', .ok x)) : Expanded (next + 1) g' := by
  have hc := (hg.tracked.expand next).2
  obtain ⟨s, node, a, steps, -, hl⟩ := hg.tracked.exists_lists (congrArg Prod.snd he)
  rw [he] at hc hl
  intro n hn
  by_cases hnext : n = next
  · subst hnext
    refine ⟨s, hl.opens.state_eq, hl.opens.model_lt, ?_⟩
    rintro t ⟨node', steps', hat, ht⟩
    have hat' := stepsAt?_eq_some_iff.mpr ⟨hl.opens.node_eq, hl.opens.stepsTo⟩
    cases hat.symm.trans hat'
    exact mem_states_of_map_state? hl.successors_eq ht
  · exact h.continues hc n (by omega)

/-- A state that a walk leads to is refused for lack of room only. -/
theorem Sound.ends_of_refuses (h : Sound g) {e : ProductError} (ht : g.Reachable t) (hr : Refuses g t e) :
    Ends g (.error e) := by
  cases hr with
  | large hfits =>
    rw [h.fits t ht] at hfits
    cases hfits
  | full hlimit hfull hnew => exact .full hlimit hfull ht hnew

theorem Explores.ends {next : Nat} {r : ProductGraph W (ExplicitAutomaton L) × Except ProductError Nat}
    (h : Explores next g r) (hg : Explored g) (hs : Sound g) (hdone : Expanded next g)
    (hinitial : ∀ s ∈ g.initialStates, s ∈ g.states) :
    Explored r.1 ∧ Continues g r.1 ∧ Ends r.1 r.2 := by
  induction h with
  | done hall =>
    exact ⟨hg, .refl _, .complete (fun s hreach => hdone.mem hall hinitial hreach)
      fun s hs => hdone.model_lt hall hs⟩
  | @failed next g g' e hlt he =>
    have hexplored := (hg.expand next).1
    have hc := (hg.tracked.expand next).2
    obtain ⟨s, hstate⟩ := exists_state?_of_lt hlt
    by_cases hmodel : s.model < g.model.size
    · -- The node can be opened, so only one of its targets can have been refused.
      have hreach := hg.reachable s (mem_states_of_state? hstate)
      obtain ⟨node, steps, ho⟩ := hs.exists_opens hreach hstate hmodel
      obtain ⟨t, ht, hrefuses⟩ := refuses_of_expand ho (congrArg Prod.snd he)
      rw [he] at hexplored hc hrefuses
      refine ⟨hexplored, hc, (hs.continues hc).ends_of_refuses (hc.later.reachable_iff.mpr ?_) hrefuses⟩
      obtain ⟨s₀, hs₀, hwalk⟩ := hreach
      exact ⟨s₀, hs₀, hwalk.tail (ho.step ht)⟩
    · obtain rfl : e = .noSuchNode := eq_noSuchNode_of_expand (congrArg Prod.snd he) fun s' node a steps ho => by
        cases hstate.symm.trans ho.state_eq
        exact hmodel ho.model_lt
      rw [he] at hexplored hc
      refine ⟨hexplored, hc, .missing (hc.state? hstate) ?_ (hdone.continues hc)⟩
      rw [hc.model]
      exact Nat.not_lt.mp hmodel
  | @expanded next g g' x r hlt he hrest ih =>
    have hexplored := (hg.expand next).1
    have hc := (hg.tracked.expand next).2
    rw [he] at hexplored hc
    have hinitial' : ∀ s ∈ g'.initialStates, s ∈ g'.states := by
      rw [hc.initialStates]
      exact fun s hmem => hc.mem (hinitial s hmem)
    obtain ⟨hr, hcr, hends⟩ := ih hexplored (hs.continues hc) (hdone.succ hg he) hinitial'
    exact ⟨hr, hc.trans hcr, hends⟩

theorem refuses_of_initialNodes {e : ProductError} (h : g.initialNodes = (g', .error e)) :
    ∃ t ∈ g.initialStates, Refuses g' t e := by
  rcases g.initialNodes_cases with ⟨ns, -, heq⟩ | ⟨g'', e', hr, heq⟩ | ⟨g'', ns, -, heq⟩
  · cases h.symm.trans heq
  · cases h.symm.trans heq
    have hrefuses := refuses_of_reachAll (congrArg Prod.snd hr)
    rw [hr] at hrefuses
    exact hrefuses
  · cases h.symm.trans heq

theorem ExploresAll.ends {r : ProductGraph W (ExplicitAutomaton L) × Except ProductError Nat}
    (h : ExploresAll g r) (hg : Explored g) (hs : Sound g) :
    Explored r.1 ∧ Continues g r.1 ∧ Ends r.1 r.2 := by
  have hexplored := hg.initialNodes.1
  have hc := hg.tracked.initialNodes.2
  cases h with
  | failed heq =>
    rw [heq] at hexplored hc
    obtain ⟨t, ht, hrefuses⟩ := refuses_of_initialNodes heq
    have hreach : g.Reachable t := ⟨t, ht, .refl⟩
    exact ⟨hexplored, hc, (hs.continues hc).ends_of_refuses (hc.later.reachable_iff.mpr hreach) hrefuses⟩
  | @started g' ns _ heq hrest =>
    have hmap := hg.map_state?_initialNodes (congrArg Prod.snd heq)
    rw [heq] at hexplored hc hmap
    have hinitial : ∀ s ∈ g'.initialStates, s ∈ g'.states := by
      intro s hmem
      rw [hc.initialStates] at hmem
      exact mem_states_of_map_state? hmap hmem
    have hnone : Expanded 0 g' := fun n hn => absurd hn (Nat.not_lt_zero n)
    obtain ⟨hr, hcr, hends⟩ := hrest.ends hexplored (hs.continues hc) hnone hinitial
    exact ⟨hr, hc.trans hcr, hends⟩

/-! ## Counting -/

theorem ncard_setOf_mem {l : List ProductState} (h : l.Nodup) : { s | s ∈ l }.ncard = l.length := by
  have hset : { s | s ∈ l } = (l.toFinset : Set ProductState) := by
    ext s
    simp
  rw [hset, Set.ncard_coe_finset, List.toFinset_card_of_nodup h]

theorem Explored.ncard_eq (h : Explored g) : { s | s ∈ g.states }.ncard = g.nodeCount := by
  rw [ncard_setOf_mem (nodup_states h.distinct), length_states]

theorem Explored.subset (h : Explored g) : { s | s ∈ g.states } ⊆ { s | g.Reachable s } := h.reachable

theorem Explored.nodeCount_eq (h : Explored g) (hall : ∀ s, g.Reachable s → s ∈ g.states) :
    g.nodeCount = { s | g.Reachable s }.ncard := by
  rw [← h.ncard_eq, Set.Subset.antisymm h.subset hall]

/-- With a state left to be entered there are fewer nodes than states that walks lead to. -/
theorem Explored.nodeCount_lt_ncard (h : Explored g) (hfin : { s | g.Reachable s }.Finite) (ht : g.Reachable t)
    (hnew : t ∉ g.states) : g.nodeCount < { s | g.Reachable s }.ncard := by
  have hssub : { s | s ∈ g.states } ⊂ { s | g.Reachable s } :=
    (Set.ssubset_iff_of_subset h.subset).mpr ⟨t, ht, hnew⟩
  rw [← h.ncard_eq]
  exact Set.ncard_lt_ncard hssub hfin

def Grounded (g : ProductGraph W (ExplicitAutomaton L)) : Prop := ∀ s, g.Reachable s → s.model < g.model.size

theorem Ends.eq_ok {r : Except ProductError Nat} (h : Ends g r) (hg : Explored g) (hmodel : g.Grounded)
    (hfin : { s | g.Reachable s }.Finite)
    (hroom : ∀ limit, g.limit = some limit → { s | g.Reachable s }.ncard ≤ limit) :
    r = .ok { s | g.Reachable s }.ncard ∧ g.nodeCount = { s | g.Reachable s }.ncard ∧
      ∀ s, g.Reachable s → s ∈ g.states := by
  cases h with
  | complete hall _ =>
    have hcount := hg.nodeCount_eq hall
    exact ⟨by rw [hcount], hcount, hall⟩
  | @full limit t hlimit hfull ht hnew =>
    have hlt := hg.nodeCount_lt_ncard hfin ht hnew
    have hle := hroom limit hlimit
    omega
  | missing hs hno _ =>
    exact absurd (hmodel _ (hg.reachable _ (mem_states_of_state? hs))) (Nat.not_lt.mpr hno)

theorem Ends.eq_error {r : Except ProductError Nat} {limit : Nat} (h : Ends g r) (hg : Explored g)
    (hmodel : g.Grounded) (hw : g.Within) (hlimit : g.limit = some limit)
    (hlt : limit < { s | g.Reachable s }.ncard) :
    r = .error (.insufficientStates limit) ∧ g.nodeCount = limit := by
  have hle := hw limit hlimit
  cases h with
  | complete hall _ =>
    have hcount := hg.nodeCount_eq hall
    omega
  | full hlimit' hfull _ _ =>
    cases hlimit.symm.trans hlimit'
    exact ⟨rfl, Nat.le_antisymm hle hfull⟩
  | missing hs hno _ =>
    exact absurd (hmodel _ (hg.reachable _ (mem_states_of_state? hs))) (Nat.not_lt.mpr hno)

/-- If a state that a walk leads to lacks its model node, exploring does not get past it. -/
theorem Ends.eq_noSuchNode {r : Except ProductError Nat} (h : Ends g r) (hg : Explored g) (hw : g.Within)
    (hfin : { s | g.Reachable s }.Finite) (ht : g.Reachable t) (hno : g.model.size ≤ t.model) :
    (r = .error .noSuchNode ∧ ∃ n s, g.state? n = some s ∧ g.model.size ≤ s.model ∧ Expanded n g) ∨
      ∃ k, g.limit = some k ∧ k < { s | g.Reachable s }.ncard ∧ r = .error (.insufficientStates k) ∧
        g.nodeCount = k := by
  cases h with
  | complete hall hmodel => exact absurd (hmodel t (hall t ht)) (Nat.not_lt.mpr hno)
  | @full k t' hlimit hfull ht' hnew =>
    have hcount := Nat.le_antisymm (hw k hlimit) hfull
    have hlt := hg.nodeCount_lt_ncard hfin ht' hnew
    exact Or.inr ⟨k, hlimit, hcount ▸ hlt, rfl, hcount⟩
  | missing hs hmodel hbefore => exact Or.inl ⟨rfl, _, _, hs, hmodel, hbefore⟩

theorem Explored.explore_of_full {limit : Nat} (hg : Explored g) (hs : Sound g) (hmodel : g.Grounded)
    (hw : g.Within) (hlimit : g.limit = some limit) (hfull : g.nodeCount = limit)
    (hlt : limit < { s | g.Reachable s }.ncard) :
    g.explore.2 = .error (.insufficientStates limit) ∧ g.explore.1.nodes = g.nodes := by
  obtain ⟨hg', hc, hends⟩ := hg.exploresAll_explore.ends hg hs
  have hsame : { s | g.explore.1.Reachable s } = { s | g.Reachable s } := by
    ext s
    exact hc.later.reachable_iff
  have hmodel' : g.explore.1.Grounded := fun s hreach => by
    rw [hc.model]
    exact hmodel s (hc.later.reachable_iff.mp hreach)
  rw [← hsame] at hlt
  obtain ⟨herror, hcount⟩ := hends.eq_error hg' hmodel' (hc.within hw) (hc.limit.trans hlimit) hlt
  exact ⟨herror, hc.keeps.eq_of_size_le (Nat.le_of_eq (hcount.trans hfull.symm))⟩

/-- Exploring a new product comes to an end, and only states that walks lead to have nodes then. -/
structure Finishes (m : Model W) (a : ExplicitAutomaton L) (moves : Nat → Bool) (limit : Option Nat)
    (r : ProductGraph W (ExplicitAutomaton L) × Except ProductError Nat) : Prop where
  /-- The loop ends by itself. -/
  explores : ExploresAll { model := m, automaton := a, moves := moves, limit := limit } r
  finite : (a.reachableStates m moves).Finite
  reachable : ∀ n s, r.1.state? n = some s → s ∈ a.reachableStates m moves

/-- What exploring a new product leaves, and what it answers. -/
structure Exhausts (m : Model W) (a : ExplicitAutomaton L) (moves : Nat → Bool) (limit : Option Nat)
    (r : ProductGraph W (ExplicitAutomaton L) × Except ProductError Nat) : Prop
    extends Finishes m a moves limit r where
  /-- With room for all states that walks lead to, they are counted and all have nodes. -/
  complete : (∀ k, limit = some k → (a.reachableStates m moves).ncard ≤ k) →
    r.2 = .ok (a.reachableStates m moves).ncard ∧ r.1.nodeCount = (a.reachableStates m moves).ncard ∧
      ∀ s ∈ a.reachableStates m moves, ∃ n, r.1.state? n = some s
  /-- Without that room exploring fails at the limit, and fails again without changing any node. -/
  full : ∀ k, limit = some k → k < (a.reachableStates m moves).ncard →
    r.2 = .error (.insufficientStates k) ∧ r.1.nodeCount = k ∧
      r.1.explore.2 = .error (.insufficientStates k) ∧ r.1.explore.1.nodes = r.1.nodes

/-- What is left if an initial model node is missing. -/
structure Stumbles (m : Model W) (a : ExplicitAutomaton L) (moves : Nat → Bool) (limit : Option Nat)
    (r : ProductGraph W (ExplicitAutomaton L) × Except ProductError Nat) : Prop
    extends Finishes m a moves limit r where
  /-- Exploring fails at the first node without a model node, when those before it have been expanded, unless the
  limit is reached before. -/
  stops : (r.2 = .error .noSuchNode ∧ ∃ n s, r.1.state? n = some s ∧ s.model ∈ m.initial ∧ m.size ≤ s.model ∧
      ∀ i < n, ∃ s', r.1.state? i = some s' ∧ s'.model < m.size ∧
        ∀ t, a.Advances m moves s' t → ∃ k, r.1.state? k = some t) ∨
    ∃ k, limit = some k ∧ k < (a.reachableStates m moves).ncard ∧
      r.2 = .error (.insufficientStates k) ∧ r.1.nodeCount = k

section

variable {m : Model W} {a : ExplicitAutomaton L} {moves : Nat → Bool} {limit : Option Nat}
  {r : ProductGraph W (ExplicitAutomaton L) × Except ProductError Nat}

/-- Exploring leaves the model and the automaton as they are, and with them where walks lead. -/
theorem Continues.setOf_reachable
    (hc : Continues { model := m, automaton := a, moves := moves, limit := limit } g) :
    { s | g.Reachable s } = a.reachableStates m moves := by
  ext s
  exact hc.later.reachable_iff.trans reachable_iff

theorem Ends.exhausts (h : Ends r.1 r.2) (hg : Explored r.1)
    (hc : Continues { model := m, automaton := a, moves := moves, limit := limit } r.1) (hs : Sound r.1)
    (hfinishes : Finishes m a moves limit r) (hm : m.EdgesInRange) (hinitial : m.InitialInRange) :
    Exhausts m a moves limit r := by
  have hset := hc.setOf_reachable
  have hw := hc.within (within_new m a moves limit)
  have hground : r.1.Grounded := fun s hreach => by
    rw [hc.model]
    exact (ExplicitAutomaton.model_lt_of_mem_reachableStates hm (hset.subset hreach)).elim (hinitial _) id
  refine ⟨hfinishes, fun hroom => ?_, fun k hk hlt => ?_⟩
  · have hfin := hfinishes.finite
    rw [← hset] at hroom hfin ⊢
    obtain ⟨hok, hcount, hall⟩ := h.eq_ok hg hground hfin fun k hk => hroom k (hc.limit.symm.trans hk)
    exact ⟨hok, hcount, fun s hreach => exists_state?_of_mem (hall s hreach)⟩
  · rw [← hset] at hlt
    have hk' := hc.limit.trans hk
    obtain ⟨herror, hcount⟩ := h.eq_error hg hground hw hk' hlt
    exact ⟨herror, hcount, hg.explore_of_full hs hground hw hk' hcount hlt⟩

theorem Ends.stumbles (h : Ends r.1 r.2) (hg : Explored r.1)
    (hc : Continues { model := m, automaton := a, moves := moves, limit := limit } r.1)
    (hfinishes : Finishes m a moves limit r) (hm : m.EdgesInRange) (hinitial : ¬ m.InitialInRange) :
    Stumbles m a moves limit r := by
  have hset := hc.setOf_reachable
  have hw := hc.within (within_new m a moves limit)
  obtain ⟨v, hv, hno⟩ : ∃ v ∈ m.initial, m.size ≤ v := by
    simpa [Model.InitialInRange] using hinitial
  have hmissing : r.1.Reachable ⟨v, a.initial⟩ := hset.superset ⟨v, hv, .refl⟩
  have hfin := hfinishes.finite
  refine ⟨hfinishes, ?_⟩
  rw [← hset] at hfin ⊢
  rcases h.eq_noSuchNode hg hw hfin hmissing (by rw [hc.model]; exact hno) with
    ⟨herror, n, s, hstate, hmodel, hbefore⟩ | ⟨k, hk, hlt, herror, hcount⟩
  · -- Edges lead to model nodes that exist, so a walk starts where one is missing.
    rw [hc.model] at hmodel
    have hstart : s.model ∈ m.initial :=
      (ExplicitAutomaton.model_lt_of_mem_reachableStates hm (hfinishes.reachable n s hstate)).resolve_right
        (Nat.not_lt.mpr hmodel)
    refine Or.inl ⟨herror, n, s, hstate, hstart, hmodel, fun i hi => ?_⟩
    obtain ⟨s', hs', hmodel', hsteps⟩ := hbefore i hi
    rw [hc.model] at hmodel'
    refine ⟨s', hs', hmodel', fun t ht => exists_state?_of_mem (hsteps t ?_)⟩
    rw [hc.step]
    exact step_iff_advances.mpr ht
  · exact Or.inr ⟨k, hc.limit.symm.trans hk, hlt, herror, hcount⟩

end

/-- Exploring a product comes to an end and exhausts the states that walks lead to, or the limit. If an initial
model node is missing, it fails there, or at the limit. -/
theorem exhausts_explore (m : Model W) (a : ExplicitAutomaton L) (moves : Nat → Bool) (limit : Option Nat)
    (hm : m.EdgesInRange) (ha : a.Closed) (hfits : ∀ s ∈ a.reachableStates m moves, s.fits = true) :
    (m.InitialInRange →
        Exhausts m a moves limit (explore { model := m, automaton := a, moves := moves, limit := limit })) ∧
      (¬ m.InitialInRange →
        Stumbles m a moves limit (explore { model := m, automaton := a, moves := moves, limit := limit })) := by
  have hg₀ := explored_new m a moves limit
  have hs₀ : Sound { model := m, automaton := a, moves := moves, limit := limit } :=
    ⟨ha, fun s hs => hfits s (reachable_iff.mp hs)⟩
  have hrun := hg₀.exploresAll_explore
  obtain ⟨hg, hc, hends⟩ := hrun.ends hg₀ hs₀
  generalize explore { model := m, automaton := a, moves := moves, limit := limit } = r at hrun hg hc hends ⊢
  have hfinishes : Finishes m a moves limit r :=
    ⟨hrun, ExplicitAutomaton.finite_reachableStates hfits, fun n s hs =>
      hc.setOf_reachable.subset (hg.reachable s (mem_states_of_state? hs))⟩
  exact ⟨hends.exhausts hg hc (hs₀.continues hc) hfinishes hm, hends.stumbles hg hc hfinishes hm⟩

end ProductGraph

/-- Accepts the runs on which a goal holds again and again. -/
def Hoa.recurrence : String :=
  "HOA: v1\nStates: 1\nStart: 0\nAP: 1 \"goal\"\nAcceptance: 1 Inf(0)\n--BODY--\n" ++
    "State: 0\n[0] 0 \x7b0\x7d\n[!0] 0\n--END--\n"

def Model.ring : Model Nat where
  nodes := #[⟨.state 0 ["goal"], [⟨1, 1⟩]⟩, ⟨.distribution, [⟨2, 1⟩, ⟨0, 1⟩]⟩, ⟨.state 1 [], [⟨0, 1⟩]⟩]
  initial := [0]

/-- One node, and another one to start from that does not exist. -/
def Model.astray : Model Nat where
  nodes := #[⟨.state 0 [], [⟨0, 1⟩]⟩]
  initial := [1]

namespace ProductGraph

/-- With room for two nodes only. -/
theorem exhausts_ring : ∃ (d : Description) (a : ExplicitAutomaton Nat),
    Hoa.read Hoa.recurrence = .ok d ∧ ExplicitAutomaton.parity d = .ok a ∧ Model.ring.EdgesInRange ∧
    Model.ring.InitialInRange ∧ a.Closed ∧
    (∀ s ∈ a.reachableStates Model.ring Model.ring.isState, s.fits = true) ∧
    Exhausts Model.ring a Model.ring.isState (some 2) (explore
      { model := Model.ring, automaton := a, moves := Model.ring.isState, limit := some 2 }) := by
  have hrun : ((Hoa.read Hoa.recurrence).toOption.bind fun d =>
      (ExplicitAutomaton.parity d).toOption.map fun a => a.edges.size) = some 2 := by decide +kernel
  obtain ⟨d, hd, hrun⟩ := Option.bind_eq_some_iff.mp hrun
  obtain ⟨a, ha, hsize⟩ := Option.map_eq_some_iff.mp hrun
  have hread := eq_ok_of_toOption hd
  have hparity := eq_ok_of_toOption ha
  have hm : Model.ring.EdgesInRange := by
    unfold Model.EdgesInRange
    decide
  have hinitial : Model.ring.InitialInRange := by
    unfold Model.InitialInRange
    decide
  have hclosed := ExplicitAutomaton.closed_of_parity (Hoa.inRange_of_read hread) hparity
  have hfits : ∀ s ∈ a.reachableStates Model.ring Model.ring.isState, s.fits = true := by
    intro s hs
    have hmodel : s.model < Model.ring.size :=
      (ExplicitAutomaton.model_lt_of_mem_reachableStates hm hs).elim (hinitial _) id
    have hautomaton := ExplicitAutomaton.automaton_lt_of_mem_reachableStates hclosed hs
    rw [hsize] at hautomaton
    exact ProductState.fits_iff.mpr
      ⟨Nat.lt_trans hmodel (by decide), Nat.lt_trans hautomaton (by decide)⟩
  exact ⟨d, a, hread, hparity, hm, hinitial, hclosed, hfits,
    (exhausts_explore Model.ring a Model.ring.isState (some 2) hm hclosed hfits).1 hinitial⟩

/-- Without a first node the one state that a walk leads to is not counted. -/
theorem explore_astray_ne_ok :
    (∀ node ∈ Model.astray.nodes.toList, ∀ e ∈ node.edges, e.target < Model.astray.size) ∧
    ∃ (d : Description) (a : ExplicitAutomaton Nat), Hoa.read Hoa.recurrence = .ok d ∧
      ExplicitAutomaton.parity d = .ok a ∧
      a.reachableStates Model.astray Model.astray.isState = {⟨1, 0⟩} ∧
      (explore { model := Model.astray, automaton := a, moves := Model.astray.isState, limit := none }).2 =
        .error .noSuchNode := by
  have hrun : ((Hoa.read Hoa.recurrence).toOption.bind fun d =>
      (ExplicitAutomaton.parity d).toOption.map fun a => (a.initial,
        (explore { model := Model.astray, automaton := a, moves := Model.astray.isState, limit := none }).2)) =
      some (0, .error .noSuchNode) := by decide +kernel
  obtain ⟨d, hd, hrun⟩ := Option.bind_eq_some_iff.mp hrun
  obtain ⟨a, ha, hrun⟩ := Option.map_eq_some_iff.mp hrun
  simp only [Prod.mk.injEq] at hrun
  obtain ⟨hinitial, hexplore⟩ := hrun
  refine ⟨by decide, d, a, eq_ok_of_toOption hd, eq_ok_of_toOption ha, ?_, hexplore⟩
  ext s
  constructor
  · rintro ⟨v, hv, hwalk⟩
    obtain rfl : v = 1 := by simpa [Model.astray] using hv
    rcases hwalk.cases_head with heq | ⟨t, hstep, -⟩
    · rw [← heq, hinitial]
      exact Set.mem_singleton _
    · cases hstep with
      | stay _ hnode _ => simp [Model.astray] at hnode
      | move _ hnode _ _ _ => simp [Model.astray] at hnode
  · intro hs
    rw [Set.mem_singleton_iff.mp hs]
    refine ⟨1, by simp [Model.astray], ?_⟩
    rw [hinitial]

end ProductGraph

end OmegaGames
