import OmegaGames.Product.Game
import OmegaGames.Proofs.Normalization
import OmegaGames.Proofs.ProductExploration
import OmegaGames.Proofs.WinningStrategies

/-!
# What the nodes of a product game stand for

A deterministic automaton takes one transition at a product state where it moves, and none elsewhere.
The game built from the product has one node for each product state that a walk leads to. The edges
of a node are those of its model node, in their order and with their weights, and lead to the targets
paired with the next state of the automaton. Nodes where the automaton does not move count for nothing
on a cycle that also has others, since their priority is above all labels.
-/
namespace OmegaGames

open Relation

/-! ## Deterministic steps -/

namespace ExplicitAutomaton

variable {W L : Type}

def transition? (a : ExplicitAutomaton L) (m : Model W) (s : ProductState) : Option Transition :=
  m.nodes[s.model]?.bind fun node => a.taken? (node.valuation a.expressions) s.automaton

/-- The state in which the automaton leaves a product state. -/
def next? (a : ExplicitAutomaton L) (m : Model W) (moves : Nat → Bool) (s : ProductState) : Option Nat :=
  if moves s.model then (a.transition? m s).map Transition.state else some s.automaton

/-- A step of the product: along an edge of the model, to the next state of the automaton. -/
def Leads (a : ExplicitAutomaton L) (m : Model W) (moves : Nat → Bool) (s t : ProductState) : Prop :=
  a.next? m moves s = some t.automaton ∧
    ∃ node, m.nodes[s.model]? = some node ∧ ∃ e ∈ node.edges, e.target = t.model

/-- The number of the label that the automaton sees at a product state; none where it does not move. -/
def labelAt? (a : ExplicitAutomaton L) (m : Model W) (moves : Nat → Bool) (s : ProductState) :
    Option Nat :=
  if moves s.model then (a.transition? m s).map Transition.label else none

/-- The priority that a parity automaton sees at a product state; none where it does not move. -/
def priorityAt? (a : ExplicitAutomaton Nat) (m : Model W) (moves : Nat → Bool) (s : ProductState) :
    Option Nat :=
  (a.labelAt? m moves s).bind a.labels.get?

def Prioritised (a : ExplicitAutomaton Nat) : Prop :=
  ∀ v q t, a.taken? v q = some t → ∃ p, a.labels.get? t.label = some p ∧ p < infinitePriority

theorem prioritised_parity {d : Description} {a : ExplicitAutomaton Nat} (hd : d.MarksFit)
    (ha : parity d = .ok a) : a.Prioritised := by
  intro v q t ht
  obtain ⟨p, hp, hle⟩ := exists_priority_of_taken? hd ha ht
  exact ⟨p, hp, Nat.lt_of_le_of_lt hle (by decide)⟩

theorem priorityAt?_of_not_moves {a : ExplicitAutomaton Nat} {m : Model W} {moves : Nat → Bool}
    {s : ProductState} (h : moves s.model = false) : a.priorityAt? m moves s = none := by
  simp [priorityAt?, labelAt?, h]

theorem Prioritised.exists_priorityAt? {a : ExplicitAutomaton Nat} (ha : a.Prioritised) {m : Model W}
    {moves : Nat → Bool} {s : ProductState} {q : Nat} (hmoves : moves s.model = true)
    (hq : a.next? m moves s = some q) :
    ∃ p, a.priorityAt? m moves s = some p ∧ p < infinitePriority := by
  rw [next?, if_pos hmoves] at hq
  obtain ⟨t, ht, -⟩ := Option.map_eq_some_iff.mp hq
  obtain ⟨node, -, htaken⟩ := Option.bind_eq_some_iff.mp ht
  obtain ⟨p, hp, hlt⟩ := ha _ _ t htaken
  exact ⟨p, by simp [priorityAt?, labelAt?, hmoves, ht, hp], hlt⟩

end ExplicitAutomaton

namespace ProductGraph

variable {W L : Type} [DecidableEq L] {g : ProductGraph W (ExplicitAutomaton L)} {s t : ProductState}

/-- A deterministic automaton has one step at every state: to its next state. -/
theorem steps_eq_singleton (hdet : g.automaton.deterministic = true) {node : ModelNode W}
    {steps : List (Nat × Option Nat)} (h : g.stepsAt? s = some (node, steps)) :
    g.model.nodes[s.model]? = some node ∧
      ∃ q, g.automaton.next? g.model g.moves s = some q ∧
        steps = [(q, g.automaton.labelAt? g.model g.moves s)] := by
  obtain ⟨node', hnode, h⟩ := Option.bind_eq_some_iff.mp h
  obtain ⟨⟨a, steps'⟩, hsteps, h⟩ := Option.bind_eq_some_iff.mp h
  cases h
  refine ⟨hnode, ?_⟩
  cases hmoves : g.moves s.model with
  | false =>
    rw [steps?, if_neg (by simp [hmoves])] at hsteps
    cases hsteps
    exact ⟨s.automaton, by simp [ExplicitAutomaton.next?, hmoves], by
      simp [ExplicitAutomaton.labelAt?, hmoves]⟩
  | true =>
    rw [steps?, if_pos hmoves] at hsteps
    obtain ⟨⟨a', ts⟩, hquery, hret⟩ := Option.bind_eq_some_iff.mp hsteps
    obtain ⟨ts', hts, hpair⟩ := Option.map_eq_some_iff.mp hquery
    cases hpair
    have hfirst := g.automaton.query?_map_take_one (node.valuation g.automaton.expressions) s.automaton
    have hts' : g.automaton.query? (node.valuation g.automaton.expressions) s.automaton = some ts := hts
    rw [hts'] at hfirst
    obtain ⟨tr, htr, hone⟩ := Option.map_eq_some_iff.mp hfirst.symm
    have htrans : g.automaton.transition? g.model s = some tr := by
      simp [ExplicitAutomaton.transition?, hnode, htr]
    refine ⟨tr.state, by simp [ExplicitAutomaton.next?, hmoves, htrans], ?_⟩
    have hdet' : Automaton.isDeterministic g.automaton = true := hdet
    have heq : steps = (ts.take 1).map fun t => (t.state, some t.label) := by
      simpa [hdet'] using (congrArg Prod.snd (Option.some.inj hret)).symm
    rw [heq, ← hone]
    simp [ExplicitAutomaton.labelAt?, hmoves, htrans]

theorem Step.leads (hdet : g.automaton.deterministic = true) (h : g.Step s t) :
    g.automaton.Leads g.model g.moves s t := by
  obtain ⟨node, steps, hsteps, ht⟩ := h
  obtain ⟨hnode, q, hq, rfl⟩ := steps_eq_singleton hdet hsteps
  simp only [targets, List.flatMap_cons, List.flatMap_nil, List.append_nil] at ht
  obtain ⟨e, he, rfl⟩ := List.mem_map.mp ht
  exact ⟨hq, node, hnode, e, he, rfl⟩

end ProductGraph

/-! ## Collecting the nodes -/

namespace ProductGame

variable {W : Type} {g g' : ProductGraph W (ExplicitAutomaton Nat)} {coalition : List Nat}

open ProductGraph (Explored Later Expands)

/-- A game node stands for a product state: before normalisation it has the priority that the
automaton sees, and its edges lead to the numbers of the successors. -/
def Renders (g : ProductGraph W (ExplicitAutomaton Nat)) (coalition : List Nat) (s : ProductState)
    (n : Node W) : Prop :=
  ∃ node q, g.model.nodes[s.model]? = some node ∧ g.automaton.next? g.model g.moves s = some q ∧
    n.owner = node.owner coalition ∧
    n.priority = (g.automaton.priorityAt? g.model g.moves s).getD infinitePriority ∧
    List.Forall₂ (fun (e e' : Edge W) => g.state? e.target = some ⟨e'.target, q⟩ ∧ e.weight = e'.weight)
      n.edges node.edges

theorem Renders.later {s : ProductState} {n : Node W} (h : Renders g coalition s n) (hl : Later g g') :
    Renders g' coalition s n := by
  obtain ⟨node, q, hnode, hq, howner, hpriority, hedges⟩ := h
  refine ⟨node, q, ?_, ?_, howner, ?_, ?_⟩
  · rw [hl.model, hnode]
  · rw [hl.model, hl.automaton, hl.moves, hq]
  · rw [hl.model, hl.automaton, hl.moves, hpriority]
  · exact hedges.imp fun e e' he => ⟨hl.state? he.1, he.2⟩

/-- The weights of the model's edges come in their order, if there are as many successors. -/
private theorem filterMap_zipIdx (es : List (Edge W)) (ns : List Nat) (k : Nat)
    (h : ns.length = (es.drop k).length) :
    (ns.zipIdx k).filterMap (fun (n, i) => es[i % es.length]?.map fun e => (⟨n, e.weight⟩ : Edge W)) =
      List.zipWith (fun n e => ⟨n, e.weight⟩) ns (es.drop k) := by
  induction ns generalizing k with
  | nil => simp
  | cons n ns ih =>
    have hk : k < es.length := by
      rw [List.length_drop, List.length_cons] at h
      omega
    rw [List.drop_eq_getElem_cons hk] at h ⊢
    have hfirst : es[k % es.length]? = some es[k] := by
      rw [Nat.mod_eq_of_lt hk, List.getElem?_eq_getElem hk]
    simp only [List.zipIdx_cons, List.filterMap_cons, hfirst, Option.map_some, List.zipWith_cons_cons]
    rw [ih (k + 1) (Nat.succ.inj h)]

private theorem forall₂_weightedEdges {node : ModelNode W} {e : Expansion} {q : Nat}
    (h : e.successors.map g.state? = (node.edges.map fun e => (⟨e.target, q⟩ : ProductState)).map some) :
    List.Forall₂ (fun (e e' : Edge W) => g.state? e.target = some ⟨e'.target, q⟩ ∧ e.weight = e'.weight)
      (weightedEdges node e) node.edges := by
  have hlen : e.successors.length = node.edges.length := by simpa using congrArg List.length h
  have hzip : weightedEdges node e = List.zipWith (fun n e => ⟨n, e.weight⟩) e.successors node.edges := by
    simpa [weightedEdges] using filterMap_zipIdx node.edges e.successors 0 (by simpa using hlen)
  rw [hzip]
  clear hzip hlen
  generalize e.successors = ns at h
  generalize node.edges = es at h
  induction es generalizing ns with
  | nil => simp
  | cons e' es ih =>
    cases ns with
    | nil => simp at h
    | cons n ns =>
      simp only [List.map_cons, List.cons.injEq] at h
      exact .cons ⟨h.1, rfl⟩ (ih ns h.2)

theorem labelPriority_eq (a : ExplicitAutomaton Nat) (label : Option Nat) :
    labelPriority a label = (label.bind a.labels.get?).getD infinitePriority := by
  cases label with
  | none => rfl
  | some l => rfl

theorem renders_of_expands (hdet : g.automaton.deterministic = true) {n : Nat} {s : ProductState}
    {e : Expansion} {node : ModelNode W} (hs : g.state? n = some s)
    (hnode : g.model.nodes[s.model]? = some node) (he : g.Expands n e) :
    Renders g coalition s
      ⟨node.owner coalition, labelPriority g.automaton e.nodeLabel, weightedEdges node e⟩ := by
  obtain ⟨s', node', steps, hs', hsteps, hsucc, hexp⟩ := he
  obtain rfl : s = s' := Option.some.inj (hs.symm.trans hs')
  obtain ⟨hnode', q, hq, rfl⟩ := ProductGraph.steps_eq_singleton hdet hsteps
  obtain rfl : node = node' := Option.some.inj (hnode.symm.trans hnode')
  have hlabel : e.nodeLabel = g.automaton.labelAt? g.model g.moves s := by
    rw [hexp]
    simp [ProductGraph.expansion, hdet]
  refine ⟨node, q, hnode, hq, rfl, ?_, forall₂_weightedEdges ?_⟩
  · rw [hlabel, labelPriority_eq]
    rfl
  · simpa [ProductGraph.targets] using hsucc

/-- What holds when the nodes before number `next` have been turned into game nodes. -/
structure Collected (coalition : List Nat) (next : Nat) (g : ProductGraph W (ExplicitAutomaton Nat))
    (states : Array ProductState) (nodes : Array (Node W)) : Prop where
  explored : Explored g
  deterministic : g.automaton.deterministic = true
  le : next ≤ g.nodeCount
  listed : states.toList = g.states.take next
  rendered : List.Forall₂ (Renders g coalition) states.toList nodes.toList

theorem gameNode_cases (g : ProductGraph W (ExplicitAutomaton Nat)) (coalition : List Nat) (n : Nat) :
    (∃ g' e, gameNode g coalition n = (g', .error e)) ∨
      ∃ s node e, g.state? n = some s ∧ g.model.nodes[s.model]? = some node ∧ (g.expand n).2 = .ok e ∧
        gameNode g coalition n = ((g.expand n).1, .ok (s,
          ⟨node.owner coalition, labelPriority (g.expand n).1.automaton e.nodeLabel,
            weightedEdges node e⟩)) := by
  cases hs : g.state? n with
  | none => exact Or.inl ⟨g, .noSuchNode, by simp only [gameNode, hs]⟩
  | some s =>
    cases hnode : g.model.nodes[s.model]? with
    | none => exact Or.inl ⟨g, .noSuchNode, by simp only [gameNode, hs, hnode]⟩
    | some node =>
      cases hr : g.expand n with
      | mk g' r =>
        cases r with
        | error e => exact Or.inl ⟨g', e, by simp only [gameNode, hs, hnode, hr]⟩
        | ok e => exact Or.inr ⟨s, node, e, rfl, hnode, rfl, by simp only [gameNode, hs, hnode, hr]⟩

theorem Collected.step {next : Nat} {states : Array ProductState} {nodes : Array (Node W)}
    (h : Collected coalition next g states nodes) {s : ProductState} {n : Node W}
    (hn : gameNode g coalition next = (g', .ok (s, n))) :
    Collected coalition (next + 1) g' (states.push s) (nodes.push n) ∧ Later g g' := by
  rcases gameNode_cases g coalition next with ⟨g'', e, heq⟩ | ⟨s', node, e, hs, hnode, he, heq⟩
  · rw [heq] at hn
    cases hn
  rw [heq] at hn
  cases hn
  obtain ⟨hexpl, hlater⟩ := h.explored.expand next
  have hdet : (g.expand next).1.automaton.deterministic = true := by
    rw [hlater.automaton, h.deterministic]
  have hs' := hlater.state? hs
  have hlt := ProductGraph.lt_nodeCount_of_state? hs'
  refine ⟨⟨hexpl, hdet, hlt, ?_, ?_⟩, hlater⟩
  · obtain ⟨more, hmore⟩ := ProductGraph.states_prefix_of_extends hlater.keeps
    have htake : g.states.take next = (g.expand next).1.states.take next := by
      rw [← hmore, List.take_append_of_le_length (by rw [g.length_states]; exact h.le)]
    rw [Array.toList_push, h.listed, htake, List.take_add_one, ProductGraph.getElem?_states, hs']
    rfl
  · rw [Array.toList_push, Array.toList_push]
    refine List.rel_append (h.rendered.imp fun _ _ hr => hr.later hlater) (.cons ?_ .nil)
    apply renders_of_expands hdet hs' _ (h.explored.expands_expand he)
    rw [hlater.model, hnode]

/-- In the end every node has been turned into a game node. -/
theorem Collected.run {steps next : Nat} {states states' : Array ProductState}
    {nodes nodes' : Array (Node W)} (h : Collected coalition next g states nodes)
    (hbound : ProductGraph.expansionBound ≤ next + steps)
    (hrun : (collect coalition steps next g states nodes).2 = .ok (states', nodes')) :
    ∃ g', Later g g' ∧ Collected coalition g'.nodeCount g' states' nodes' := by
  induction steps generalizing next g states nodes with
  | zero =>
    have hlt := ProductGraph.nodeCount_lt_expansionBound h.explored.distinct
    have hle := h.le
    omega
  | succ steps ih =>
    by_cases hnext : next < g.nodeCount
    · rw [collect, if_pos hnext] at hrun
      rcases gameNode_cases g coalition next with ⟨g', e, heq⟩ | ⟨s, node, e, -, -, -, heq⟩
      · rw [heq] at hrun
        cases hrun
      · rw [heq] at hrun
        obtain ⟨hcollected, hlater⟩ := h.step heq
        obtain ⟨g', hlater', hdone⟩ := ih hcollected (by omega) hrun
        exact ⟨g', hlater.trans hlater', hdone⟩
    · rw [collect, if_neg hnext] at hrun
      cases hrun
      have heq : next = g.nodeCount := Nat.le_antisymm h.le (Nat.le_of_not_lt hnext)
      exact ⟨g, .refl g, heq ▸ h⟩

/-! ## The game -/

/-- A game stands for the product of a model with a deterministic parity automaton. -/
structure Represents (p : ProductGame W) (m : Model W) (a : ExplicitAutomaton Nat)
    (moves : Nat → Bool) (coalition : List Nat) : Prop where
  size : p.game.size = p.states.size
  distinct : p.states.toList.Nodup
  mem_states_iff : ∀ s, s ∈ p.states.toList ↔
    ∃ v ∈ m.initial, ReflTransGen (a.Leads m moves) ⟨v, a.initial⟩ s
  initial : p.initial.map (fun n => p.states[n]?) = m.initial.map fun v => some ⟨v, a.initial⟩
  owner_state : ∀ n s node controller propositions, p.states[n]? = some s →
    m.nodes[s.model]? = some node → node.kind = .state controller propositions →
    p.game.owner n = if controller ∈ coalition then .even else .odd
  owner_distribution : ∀ n s node, p.states[n]? = some s → m.nodes[s.model]? = some node →
    node.kind = .distribution → p.game.owner n = .stochastic
  /-- In the order of the model's edges, each edge leads to the same model node, with the same weight,
  and to the next state of the automaton. -/
  edges : ∀ n s, p.states[n]? = some s → ∃ node q, m.nodes[s.model]? = some node ∧
    a.next? m moves s = some q ∧
    List.Forall₂ (fun (e e' : Edge W) => p.states[e.target]? = some ⟨e'.target, q⟩ ∧
      e.weight = e'.weight) (p.game.edges n) node.edges
  priority : ∀ n s, p.states[n]? = some s → moves s.model = true →
    a.priorityAt? m moves s = some (p.game.priority n)
  cycles : ∀ c, IsCycle (fun u v => v ∈ p.game.succs u) c →
    (∃ n ∈ c, ∃ s, p.states[n]? = some s ∧ moves s.model = true) →
    (c.map p.game.priority).min? =
      (c.filterMap fun n => p.states[n]?.bind (a.priorityAt? m moves)).min?

namespace Collected

variable {states : Array ProductState} {nodes : Array (Node W)}

theorem state?_eq (h : Collected coalition g.nodeCount g states nodes) (n : Nat) :
    states[n]? = g.state? n := by
  have hall : states.toList = g.states := by
    rw [h.listed]
    exact List.take_of_length_le g.length_states.le
  rw [← Array.getElem?_toList, hall, g.getElem?_states]

theorem exists_renders (h : Collected coalition g.nodeCount g states nodes) {n : Nat}
    {s : ProductState} (hs : states[n]? = some s) :
    ∃ node, nodes[n]? = some node ∧ Renders g coalition s node := by
  obtain ⟨hlt, hget⟩ := Array.getElem?_eq_some_iff.mp hs
  have hlen := h.rendered.length_eq
  simp only [Array.length_toList] at hlen
  have hlt' : n < nodes.size := hlen ▸ hlt
  refine ⟨nodes[n], Array.getElem?_eq_getElem hlt', ?_⟩
  have hrel := (List.forall₂_iff_get.mp h.rendered).2 n (by simpa using hlt) (by simpa using hlt')
  simpa [hget] using hrel

theorem priority_of_moves (h : Collected coalition g.nodeCount g states nodes)
    (ha : g.automaton.Prioritised) {n : Nat} {s : ProductState} (hs : states[n]? = some s)
    (hmoves : g.moves s.model = true) :
    g.automaton.priorityAt? g.model g.moves s = some ((⟨nodes⟩ : Game W).priority n) ∧
      (⟨nodes⟩ : Game W).priority n < infinitePriority := by
  obtain ⟨node, hnode, -, q, -, hq, -, hpriority, -⟩ := h.exists_renders hs
  obtain ⟨p, hp, hlt⟩ := ha.exists_priorityAt? hmoves hq
  have heq : (⟨nodes⟩ : Game W).priority n = p := by simp [Game.priority, hnode, hpriority, hp]
  exact ⟨heq ▸ hp, heq ▸ hlt⟩

theorem priority_of_not_moves (h : Collected coalition g.nodeCount g states nodes) {n : Nat}
    {s : ProductState} (hs : states[n]? = some s) (hmoves : g.moves s.model = false) :
    (⟨nodes⟩ : Game W).priority n = infinitePriority := by
  obtain ⟨node, hnode, -, -, -, -, -, hpriority, -⟩ := h.exists_renders hs
  rw [ExplicitAutomaton.priorityAt?_of_not_moves hmoves] at hpriority
  simp [Game.priority, hnode, hpriority]

/-- Only nodes where the automaton moves decide a cycle. -/
theorem min?_eq (h : Collected coalition g.nodeCount g states nodes) (ha : g.automaton.Prioritised)
    {c : List Nat} (hc : ∀ n ∈ c, ∃ s, states[n]? = some s)
    (hmoves : ∃ n ∈ c, ∃ s, states[n]? = some s ∧ g.moves s.model = true) :
    (c.map (⟨nodes⟩ : Game W).normalize.priority).min? =
      (c.filterMap fun n => states[n]?.bind (g.automaton.priorityAt? g.model g.moves)).min? := by
  have hlt : ∀ {n s}, states[n]? = some s → n < (⟨nodes⟩ : Game W).size := by
    intro n s hs
    obtain ⟨node, hnode, -⟩ := h.exists_renders hs
    exact (Array.getElem?_eq_some_iff.mp hnode).1
  have hseen : ∀ {n s}, states[n]? = some s → g.moves s.model = true →
      states[n]?.bind (g.automaton.priorityAt? g.model g.moves) =
        some ((⟨nodes⟩ : Game W).normalize.priority n) := by
    intro n s hs hm
    obtain ⟨hp, hfinite⟩ := h.priority_of_moves ha hs hm
    rw [hs, Option.bind_some, hp, Game.priority_normalize_of_ne (Nat.ne_of_lt hfinite)]
  obtain ⟨n₀, hn₀, s₀, hs₀, hm₀⟩ := hmoves
  have hmem₀ : (⟨nodes⟩ : Game W).normalize.priority n₀ ∈
      c.filterMap fun n => states[n]?.bind (g.automaton.priorityAt? g.model g.moves) :=
    List.mem_filterMap.mpr ⟨n₀, hn₀, hseen hs₀ hm₀⟩
  obtain ⟨k, hk⟩ := Option.ne_none_iff_exists'.mp (mt List.min?_eq_none_iff.mp (List.ne_nil_of_mem hmem₀))
  obtain ⟨hkmem, hkle⟩ := List.min?_eq_some_iff.mp hk
  rw [hk]
  apply List.min?_eq_some_iff.mpr
  constructor
  · obtain ⟨n, hn, hkn⟩ := List.mem_filterMap.mp hkmem
    obtain ⟨s, hs⟩ := hc n hn
    cases hm : g.moves s.model with
    | true =>
      rw [hseen hs hm] at hkn
      exact List.mem_map.mpr ⟨n, hn, Option.some.inj hkn⟩
    | false =>
      rw [hs, Option.bind_some, ExplicitAutomaton.priorityAt?_of_not_moves hm] at hkn
      cases hkn
  · intro b hb
    obtain ⟨n, hn, rfl⟩ := List.mem_map.mp hb
    obtain ⟨s, hs⟩ := hc n hn
    cases hm : g.moves s.model with
    | true => exact hkle _ (List.mem_filterMap.mpr ⟨n, hn, hseen hs hm⟩)
    | false =>
      have hfinite := (h.priority_of_moves ha hs₀ hm₀).2
      have habove := Game.priority_normalize_lt (hlt hs₀) (hlt hs) (Nat.ne_of_lt hfinite)
        (h.priority_of_not_moves hs hm)
      exact (hkle _ hmem₀).trans habove.le

theorem mem_states_iff (h : Collected coalition g.nodeCount g states nodes) {initial : List Nat}
    (hinit : initial.map g.state? = g.initialStates.map some) (s : ProductState) :
    s ∈ states.toList ↔
      ∃ v ∈ g.model.initial, ReflTransGen (g.automaton.Leads g.model g.moves) ⟨v, g.automaton.initial⟩ s := by
  have hmem : ∀ {n t}, g.state? n = some t → t ∈ states.toList := by
    intro n t ht
    rw [← h.state?_eq] at ht
    exact List.mem_of_getElem? (Array.getElem?_toList.trans ht)
  constructor
  · intro hs
    obtain ⟨n, hn⟩ := List.mem_iff_getElem?.mp hs
    rw [Array.getElem?_toList, h.state?_eq] at hn
    obtain ⟨s₀, hs₀, hwalk⟩ := h.explored.reachable s (ProductGraph.mem_states_of_state? hn)
    obtain ⟨v, hv, rfl⟩ := List.mem_map.mp hs₀
    exact ⟨v, hv, ReflTransGen.mono (fun _ _ hst => hst.leads h.deterministic) _ _ hwalk⟩
  · rintro ⟨v, hv, hwalk⟩
    induction hwalk with
    | refl =>
      have hv' : some ⟨v, g.automaton.initial⟩ ∈ initial.map g.state? := by
        rw [hinit]
        exact List.mem_map_of_mem (List.mem_map_of_mem hv)
      obtain ⟨n, -, hn⟩ := List.mem_map.mp hv'
      exact hmem hn
    | tail _ hleads ih =>
      obtain ⟨n, hn⟩ := List.mem_iff_getElem?.mp ih
      rw [Array.getElem?_toList] at hn
      obtain ⟨n', hn', node, q, hnode, hq, howner, hpriority, hedges⟩ := h.exists_renders hn
      obtain ⟨hq', node', hnode', e, he, htarget⟩ := hleads
      obtain rfl := Option.some.inj (hnode.symm.trans hnode')
      obtain rfl := Option.some.inj (hq.symm.trans hq')
      obtain ⟨e', -, he', -⟩ := exists_mem_of_forall₂ hedges e he
      rw [htarget] at he'
      exact hmem he'

theorem represents (h : Collected coalition g.nodeCount g states nodes) (ha : g.automaton.Prioritised)
    {initial : List Nat} (hinit : initial.map g.state? = g.initialStates.map some) :
    Represents ⟨(⟨nodes⟩ : Game W).normalize, states, initial⟩ g.model g.automaton g.moves coalition := by
  have hsize : (⟨nodes⟩ : Game W).size = states.size := by
    simpa [Game.size] using h.rendered.length_eq.symm
  refine ⟨by simpa using hsize, ?_, h.mem_states_iff hinit, ?_, ?_, ?_, ?_, ?_, ?_⟩
  · rw [h.listed]
    exact (ProductGraph.nodup_states h.explored.distinct).sublist (List.take_sublist _ _)
  · simp only [h.state?_eq, hinit, ProductGraph.initialStates, List.map_map]
    rfl
  · intro n s node controller propositions hs hnode hkind
    obtain ⟨n', hn', node', q, hnode', -, howner, -⟩ := h.exists_renders hs
    obtain rfl := Option.some.inj (hnode.symm.trans hnode')
    rw [Game.owner_normalize, (Game.of_node hn').2.1, howner]
    simp [ModelNode.owner, hkind]
  · intro n s node hs hnode hkind
    obtain ⟨n', hn', node', q, hnode', -, howner, -⟩ := h.exists_renders hs
    obtain rfl := Option.some.inj (hnode.symm.trans hnode')
    rw [Game.owner_normalize, (Game.of_node hn').2.1, howner]
    simp [ModelNode.owner, hkind]
  · intro n s hs
    obtain ⟨n', hn', node, q, hnode, hq, -, -, hedges⟩ := h.exists_renders hs
    refine ⟨node, q, hnode, hq, ?_⟩
    have hnode' : (⟨nodes⟩ : Game W).edges n = n'.edges := by simp [Game.edges, hn']
    rw [Game.edges_normalize, hnode']
    exact hedges.imp fun e e' he => ⟨(h.state?_eq _).trans he.1, he.2⟩
  · intro n s hs hmoves
    obtain ⟨hp, hfinite⟩ := h.priority_of_moves ha hs hmoves
    rw [hp, Game.priority_normalize_of_ne (Nat.ne_of_lt hfinite)]
  · intro c hc hmoves
    apply h.min?_eq ha _ hmoves
    intro n hn
    obtain ⟨v, -, hv⟩ := hc.connected.1 n hn
    have hlt : n < states.size := by
      have hlt := Game.lt_size_of_mem_succs _ hv
      rwa [Game.size_normalize, hsize] at hlt
    exact ⟨states[n], Array.getElem?_eq_getElem hlt⟩

end Collected

theorem of_build_eq_ok {p : ProductGame W} (h : build g coalition = .ok p) :
    g.automaton.deterministic = true ∧
      ∃ initial states nodes, g.initialNodes.2 = .ok initial ∧
        (collect coalition ProductGraph.expansionBound 0 g.initialNodes.1 #[] #[]).2 = .ok (states, nodes) ∧
        p = ⟨(⟨nodes⟩ : Game W).normalize, states, initial⟩ := by
  have hinst : Automaton.isDeterministic g.automaton = g.automaton.deterministic := rfl
  cases hdet : g.automaton.deterministic with
  | false =>
    rw [build, hinst, hdet] at h
    cases h
  | true =>
    rw [build, hinst, hdet] at h
    cases hr : g.initialNodes with
    | mk g' r =>
      simp only [hr] at h
      cases r with
      | error e => cases h
      | ok initial =>
        obtain ⟨⟨states, nodes⟩, hrun, hret⟩ := exists_of_bind_eq_ok h
        cases hret
        exact ⟨rfl, initial, states, nodes, rfl, hrun, rfl⟩

/-- If a game is built from a model and a parity automaton, it stands for their product. -/
theorem represents_of_build (d : Description) (a : ExplicitAutomaton Nat) (m : Model W)
    (moves : Nat → Bool) (limit : Option Nat) (coalition : List Nat) (p : ProductGame W)
    (hd : d.MarksFit) (ha : ExplicitAutomaton.parity d = .ok a)
    (hp : build { model := m, automaton := a, moves := moves, limit := limit } coalition = .ok p) :
    p.Represents m a moves coalition := by
  have hnew := ProductGraph.explored_new m a moves limit
  obtain ⟨hdet, initial, states, nodes, hinit, hrun, rfl⟩ := of_build_eq_ok hp
  obtain ⟨hexpl, hlater⟩ := hnew.initialNodes
  have hstart : Collected coalition 0 _ #[] (#[] : Array (Node W)) :=
    { explored := hexpl
      deterministic := by rw [hlater.automaton, hdet]
      le := Nat.zero_le _
      listed := rfl
      rendered := .nil }
  obtain ⟨g', hlater', hdone⟩ := hstart.run (by omega) hrun
  have hall := hlater.trans hlater'
  have hinitial : initial.map g'.state? = g'.initialStates.map some := by
    rw [hall.initialStates]
    exact ProductGraph.map_state?_of_extends hlater'.keeps (hnew.map_state?_initialNodes hinit)
  have hrep := hdone.represents (by
    rw [hall.automaton]
    exact ExplicitAutomaton.prioritised_parity hd ha) hinitial
  rwa [hall.model, hall.automaton, hall.moves] at hrep

end ProductGame

/-- Accepts the runs on which a goal holds again and again. -/
def Description.recurrence : Description where
  name := none
  stateCount := 1
  start := [0]
  aps := ["goal"]
  accName := []
  acceptanceSets := 1
  acceptance := .inf 0
  properties := []
  other := []
  states := [⟨0, none, [], [⟨.ap 0, 0, [0]⟩, ⟨.not (.ap 0), 0, []⟩]⟩]

/-- Player 0 goes to the goal, or has chance decide where to go on. -/
def Model.errand : Model Rat where
  nodes := #[⟨.state 0 [], [⟨1, 1⟩, ⟨2, 1⟩]⟩, ⟨.state 1 ["goal"], [⟨0, 1⟩]⟩,
    ⟨.distribution, [⟨0, 1 / 2⟩, ⟨1, 1 / 2⟩]⟩]
  initial := [0]

/-- The game of the errand has three nodes and stands for the product. -/
theorem ProductGame.represents_errand :
    Description.recurrence.MarksFit ∧ ∃ a p, ExplicitAutomaton.parity Description.recurrence = .ok a ∧
      ProductGame.build { model := Model.errand, automaton := a, moves := Model.errand.isState, limit := none }
        [0] = .ok p ∧ p.game.size = 3 ∧ p.Represents Model.errand a Model.errand.isState [0] := by
  have hd : Description.recurrence.MarksFit := by
    unfold Description.MarksFit
    decide
  have hrun : ((ExplicitAutomaton.parity Description.recurrence).toOption.bind fun a =>
      (ProductGame.build { model := Model.errand, automaton := a, moves := Model.errand.isState, limit := none }
        [0]).toOption.map fun p => p.game.size) = some 3 := by decide +kernel
  obtain ⟨a, ha, hrun⟩ := Option.bind_eq_some_iff.mp hrun
  obtain ⟨p, hp, hsize⟩ := Option.map_eq_some_iff.mp hrun
  have ha := eq_ok_of_toOption ha
  have hp := eq_ok_of_toOption hp
  refine ⟨hd, a, p, ha, hp, hsize, ?_⟩
  exact ProductGame.represents_of_build Description.recurrence a Model.errand _ none [0] p hd ha hp

end OmegaGames
