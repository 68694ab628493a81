import OmegaGames.Proofs.ExplicitAutomata
import OmegaGames.Proofs.ProductDiscovery

/-!
# Exploring a product

All states of an explicit automaton are known from the start, so the steps of a product with it are
fixed. Whatever is asked of such a product, only states are entered that a walk of the product leads to.
-/
namespace OmegaGames
namespace ProductGraph

open Relation

/-- The same product with more nodes. -/
structure Later {W A : Type} (g g' : ProductGraph W A) : Prop where
  model : g'.model = g.model
  automaton : g'.automaton = g.automaton
  moves : g'.moves = g.moves
  keeps : g.nodes.Extends g'.nodes

theorem Later.refl {W A : Type} (g : ProductGraph W A) : Later g g := ⟨rfl, rfl, rfl, .refl _⟩

theorem Later.trans {W A : Type} {g g' g'' : ProductGraph W A} (h : Later g g') (h' : Later g' g'') :
    Later g g'' :=
  ⟨h'.model.trans h.model, h'.automaton.trans h.automaton, h'.moves.trans h.moves,
    h.keeps.trans h'.keeps⟩

theorem Later.state? {W A : Type} {g g' : ProductGraph W A} (h : Later g g') {n : Nat} {s : ProductState}
    (hs : g.state? n = some s) : g'.state? n = some s :=
  state?_of_extends h.keeps hs

variable {W L : Type} [DecidableEq L] {g g' : ProductGraph W (ExplicitAutomaton L)}

theorem Continues.later (h : Continues g g') : Later g g' :=
  ⟨h.model, ExplicitAutomaton.eq_of_queried h.queried, h.moves, h.keeps⟩

/-- The model node of a product state, and the steps of the automaton there. -/
def stepsAt? (g : ProductGraph W (ExplicitAutomaton L)) (s : ProductState) :
    Option (ModelNode W × List (Nat × Option Nat)) := do
  let node ← g.model.nodes[s.model]?
  let (_, steps) ← g.steps? s.model node s.automaton
  return (node, steps)

def Step (g : ProductGraph W (ExplicitAutomaton L)) (s t : ProductState) : Prop :=
  ∃ node steps, g.stepsAt? s = some (node, steps) ∧ t ∈ targets node steps

def Reachable (g : ProductGraph W (ExplicitAutomaton L)) (s : ProductState) : Prop :=
  ∃ s₀ ∈ g.initialStates, ReflTransGen g.Step s₀ s

def Expands (g : ProductGraph W (ExplicitAutomaton L)) (n : Nat) (e : Expansion) : Prop :=
  ∃ s node steps, g.state? n = some s ∧ g.stepsAt? s = some (node, steps) ∧
    e.successors.map g.state? = (targets node steps).map some ∧
    e = expansion g.automaton.deterministic node steps e.successors

structure Explored (g : ProductGraph W (ExplicitAutomaton L)) : Prop where
  distinct : g.nodes.Distinct
  reachable : ∀ s ∈ g.states, g.Reachable s
  initial : ∀ ns, g.initial = some ns → ns.map g.state? = g.initialStates.map some
  last : ∀ n, g.last = some n → g.Expands n g.cache

theorem Later.initialStates (h : Later g g') : g'.initialStates = g.initialStates := by
  simp only [ProductGraph.initialStates, h.model, h.automaton]

theorem Later.stepsAt? (h : Later g g') : g'.stepsAt? = g.stepsAt? := by
  funext s
  simp only [ProductGraph.stepsAt?, steps?, h.model, h.automaton, h.moves]

theorem Later.reachable_iff (h : Later g g') {s : ProductState} : g'.Reachable s ↔ g.Reachable s := by
  have hstep : g'.Step = g.Step := by
    funext s t
    simp only [Step, h.stepsAt?]
  simp only [Reachable, hstep, h.initialStates]

theorem stepsAt?_eq_some_iff {s : ProductState} {node : ModelNode W} {steps : List (Nat × Option Nat)} :
    g.stepsAt? s = some (node, steps) ↔ g.model.nodes[s.model]? = some node ∧
      StepsTo g.moves g.automaton s.model node s.automaton g.automaton steps := by
  constructor
  · intro h
    obtain ⟨node', hnode, h⟩ := Option.bind_eq_some_iff.mp h
    obtain ⟨⟨a, steps'⟩, hsteps, h⟩ := Option.bind_eq_some_iff.mp h
    cases h
    have hto := steps?_eq_some_iff.mp hsteps
    obtain rfl := ExplicitAutomaton.eq_of_queried hto.queried
    exact ⟨hnode, hto⟩
  · rintro ⟨hnode, hto⟩
    simp [stepsAt?, hnode, steps?_eq_some_iff.mpr hto]

theorem expands_iff {n : Nat} {e : Expansion} :
    g.Expands n e ↔ ∃ s node steps, Lists g n s node steps e := by
  constructor
  · rintro ⟨s, node, steps, hs, hat, hsucc, hexp⟩
    obtain ⟨hnode, hto⟩ := stepsAt?_eq_some_iff.mp hat
    exact ⟨s, node, steps, ⟨hs, hnode, hto⟩, hsucc, hexp⟩
  · rintro ⟨s, node, steps, hopens, hsucc, hexp⟩
    exact ⟨s, node, steps, hopens.state_eq, stepsAt?_eq_some_iff.mpr ⟨hopens.node_eq, hopens.stepsTo⟩,
      hsucc, hexp⟩

theorem Explored.tracked (h : Explored g) : Tracked g :=
  ⟨h.distinct, h.initial, fun n hlast => expands_iff.mp (h.last n hlast)⟩

theorem Tracked.explored (h : Tracked g) (hreach : ∀ s ∈ g.states, g.Reachable s) : Explored g :=
  ⟨h.distinct, hreach, h.initial, fun n hlast => expands_iff.mpr (h.last n hlast)⟩

theorem explored_new (m : Model W) (a : ExplicitAutomaton L) (moves : Nat → Bool) (limit : Option Nat) :
    Explored { model := m, automaton := a, moves := moves, limit := limit } :=
  (tracked_new m a moves limit).explored fun s hs => by simp [states] at hs

theorem Explored.initialNodes (h : Explored g) : Explored g.initialNodes.1 ∧ Later g g.initialNodes.1 := by
  obtain ⟨htracked, hc⟩ := h.tracked.initialNodes
  refine ⟨htracked.explored fun s hs => ?_, hc.later⟩
  rw [hc.later.reachable_iff]
  rcases mem_initialNodes hs with hold | hinitial
  · exact h.reachable s hold
  · exact ⟨s, hinitial, .refl⟩

theorem Explored.map_state?_initialNodes (h : Explored g) {ns : List Nat}
    (hns : g.initialNodes.2 = .ok ns) :
    ns.map g.initialNodes.1.state? = g.initialStates.map some :=
  h.tracked.map_state?_initialNodes hns

theorem Opens.step {n : Nat} {s t : ProductState} {node : ModelNode W} {a : ExplicitAutomaton L}
    {steps : List (Nat × Option Nat)} (h : Opens g n s node a steps) (ht : t ∈ targets node steps) :
    g.Step s t := by
  have hto := h.stepsTo
  obtain rfl := ExplicitAutomaton.eq_of_queried hto.queried
  exact ⟨node, steps, stepsAt?_eq_some_iff.mpr ⟨h.node_eq, hto⟩, ht⟩

theorem Explored.expand (h : Explored g) (n : Nat) :
    Explored (g.expand n).1 ∧ Later g (g.expand n).1 := by
  obtain ⟨htracked, hc⟩ := h.tracked.expand n
  refine ⟨htracked.explored fun t ht => ?_, hc.later⟩
  rw [hc.later.reachable_iff]
  rcases mem_expand ht with hold | ⟨s, node, a, steps, hopens, htarget⟩
  · exact h.reachable t hold
  · obtain ⟨s₀, hs₀, hwalk⟩ := h.reachable s (mem_states_of_state? hopens.state_eq)
    exact ⟨s₀, hs₀, hwalk.tail (hopens.step htarget)⟩

theorem Explored.expands_expand (h : Explored g) {n : Nat} {e : Expansion}
    (he : (g.expand n).2 = .ok e) : (g.expand n).1.Expands n e := by
  obtain ⟨s, node, a, steps, -, hlists⟩ := h.tracked.exists_lists he
  exact expands_iff.mpr ⟨s, node, steps, hlists⟩

end ProductGraph

end OmegaGames
