import OmegaGames.Product.Check
import OmegaGames.Proofs.Handover
import OmegaGames.Proofs.ProductGames

/-!
# Larger coalitions

The product of a model with an automaton does not depend on the coalition; only the owners of its nodes
do. In a model without distributions a larger coalition therefore gets the same game with some of Odd's
nodes handed over to Even, and whatever a check reports for a coalition it also reports for a larger one.
-/
namespace OmegaGames

variable {W : Type} {C D : List Nat}

theorem ModelNode.handsOver {node : ModelNode W} (hstate : node.isState = true) (hCD : ∀ c ∈ C, c ∈ D)
    (priority : Nat) (edges : List (Edge W)) :
    Node.HandsOver ⟨node.owner C, priority, edges⟩ ⟨node.owner D, priority, edges⟩ := by
  cases hkind : node.kind with
  | distribution => simp [isState, hkind] at hstate
  | state controller propositions =>
    have howner : ∀ coalition : List Nat,
        node.owner coalition = if controller ∈ coalition then .even else .odd := by
      intro coalition
      simp [owner, hkind]
    refine ⟨rfl, rfl, ?_, ?_, ?_⟩
    · intro heven
      rw [howner] at heven ⊢
      by_cases hc : controller ∈ C
      · rw [if_pos (hCD controller hc)]
      · simp [hc] at heven
    · rw [howner]
      split <;> simp
    · rw [howner]
      split <;> simp

namespace ProductGame

open ProductGraph (Explored Later)

variable {g g' : ProductGraph W (ExplicitAutomaton Nat)} {nodes nodes' : Array (Node W)}
  {states states' : Array ProductState}

theorem exists_gameNode_of_subset (hstate : ∀ node ∈ g.model.nodes.toList, node.isState = true)
    (hCD : ∀ c ∈ C, c ∈ D) {n : Nat} {s : ProductState} {node : Node W}
    (h : gameNode g C n = (g', .ok (s, node))) :
    g' = (g.expand n).1 ∧ ∃ node', gameNode g D n = (g', .ok (s, node')) ∧ node.HandsOver node' := by
  rcases gameNode_cases g C n with ⟨g'', e, heq⟩ | ⟨s', modelNode, e, hs, hnode, he, heq⟩
  · rw [heq] at h
    cases h
  · rw [heq] at h
    cases h
    have hmem : modelNode ∈ g.model.nodes.toList := List.mem_of_getElem? (Array.getElem?_toList.trans hnode)
    refine ⟨rfl, _, ?_, modelNode.handsOver (hstate modelNode hmem) hCD _ _⟩
    cases hr : g.expand n with
    | mk g'' r =>
      rw [hr] at he
      subst he
      simp only [gameNode, hs, hnode, hr]

theorem exists_collect_of_subset (hexpl : Explored g)
    (hstate : ∀ node ∈ g.model.nodes.toList, node.isState = true) (hCD : ∀ c ∈ C, c ∈ D)
    {result : Array (Node W)} {steps next : Nat}
    (hnodes : List.Forall₂ Node.HandsOver nodes.toList nodes'.toList)
    (h : (collect C steps next g states nodes).2 = .ok (states', result)) :
    ∃ result', (collect D steps next g states nodes').2 = .ok (states', result') ∧
      List.Forall₂ Node.HandsOver result.toList result'.toList := by
  induction steps generalizing next g states nodes nodes' with
  | zero =>
    cases h
    exact ⟨nodes', rfl, hnodes⟩
  | succ steps ih =>
    rw [collect] at h ⊢
    split at h
    · rename_i hnext
      rw [if_pos hnext]
      split at h
      · cases h
      · rename_i g' s node hnode
        obtain ⟨rfl, node', hnode', hhands⟩ := exists_gameNode_of_subset hstate hCD hnode
        obtain ⟨hexpl', hlater⟩ := hexpl.expand next
        rw [hnode']
        refine ih hexpl' (by rwa [hlater.model]) ?_ h
        rw [Array.toList_push, Array.toList_push]
        exact List.rel_append hnodes (.cons hhands .nil)
    · rename_i hnext
      cases h
      exact ⟨nodes', by rw [if_neg hnext], hnodes⟩

theorem build_eq_ok {coalition initial : List Nat} (hdet : g.automaton.deterministic = true)
    (hinit : g.initialNodes.2 = .ok initial)
    (hrun : (collect coalition ProductGraph.expansionBound 0 g.initialNodes.1 #[] #[]).2 =
      .ok (states, nodes)) :
    build g coalition = .ok ⟨(⟨nodes⟩ : Game W).normalize, states, initial⟩ := by
  have hinst : Automaton.isDeterministic g.automaton = g.automaton.deterministic := rfl
  rw [build, hinst, hdet]
  cases hr : g.initialNodes with
  | mk g' r =>
    rw [hr] at hinit hrun
    subst hinit
    simp only [hrun]
    rfl

theorem exists_build_of_subset (hexpl : Explored g)
    (hstate : ∀ node ∈ g.model.nodes.toList, node.isState = true) (hCD : ∀ c ∈ C, c ∈ D)
    {p : ProductGame W} (h : build g C = .ok p) :
    ∃ p', build g D = .ok p' ∧ p'.states = p.states ∧ p'.initial = p.initial ∧
      p.game.HandsOver p'.game := by
  obtain ⟨hdet, initial, states, nodes, hinit, hrun, rfl⟩ := of_build_eq_ok h
  obtain ⟨hexpl', hlater⟩ := hexpl.initialNodes
  obtain ⟨nodes', hrun', hnodes⟩ := exists_collect_of_subset hexpl' (by rwa [hlater.model]) hCD
    (.nil : List.Forall₂ Node.HandsOver (#[] : Array (Node W)).toList (#[] : Array (Node W)).toList) hrun
  refine ⟨_, build_eq_ok hdet hinit hrun', rfl, rfl, ?_⟩
  have hgames : (⟨nodes⟩ : Game W).HandsOver ⟨nodes'⟩ := hnodes
  exact hgames.normalize

/-- The initial nodes of a game stand for the initial model nodes, in their order. -/
theorem map_states_initial_of_build {m : Model W} {a : ExplicitAutomaton Nat} {coalition : List Nat}
    {p : ProductGame W} (h : build (.ofModel m a) coalition = .ok p) :
    p.initial.map (fun n => p.states[n]?) = m.initial.map fun v => some ⟨v, a.initial⟩ := by
  have hnew := ProductGraph.explored_new m a m.isState none
  obtain ⟨hdet, initial, states, nodes, hinit, hrun, rfl⟩ := of_build_eq_ok h
  obtain ⟨hexpl, hlater⟩ := hnew.initialNodes
  have hstart : Collected coalition 0 _ #[] (#[] : Array (Node W)) :=
    { explored := hexpl
      deterministic := by rw [hlater.automaton]; exact hdet
      le := Nat.zero_le _
      listed := rfl
      rendered := .nil }
  obtain ⟨g', hlater', hdone⟩ := hstart.run (by omega) hrun
  have hnumbers := ProductGraph.map_state?_of_extends hlater'.keeps (hnew.map_state?_initialNodes hinit)
  rw [ProductGraph.initialStates, List.map_map] at hnumbers
  simp only [hdone.state?_eq]
  exact hnumbers

end ProductGame

/-! ## Checks -/

namespace Model

theorem report_eq {α : Type} {m : Model Float} {p : ProductGame Float} {q : Nat} (f : Nat → α)
    (h : p.initial.map (fun n => p.states[n]?) = m.initial.map fun v => some ⟨v, q⟩) :
    report p f = m.initial.zip (p.initial.map f) := by
  rw [report]
  generalize p.initial = ns at h
  generalize m.initial = vs at h
  induction ns generalizing vs with
  | nil =>
    cases vs with
    | nil => rfl
    | cons v vs => simp at h
  | cons n ns ih =>
    cases vs with
    | nil => simp at h
    | cons v vs =>
      simp only [List.map_cons, List.cons.injEq] at h
      rw [List.filterMap_cons, h.1, List.map_cons, List.zip_cons_cons, ih vs h.2]
      rfl

theorem checkQualitative_eq_ok_iff {m : Model Float} {a : ExplicitAutomaton Nat} {coalition : List Nat}
    {strictEven : Bool} {o : Options} {rs : List (Nat × Bool)} :
    m.checkQualitative a coalition strictEven o = .ok rs ↔
      ∃ p r, ProductGame.build (.ofModel m a) coalition = .ok p ∧
        o.qualitative.solve p.game ⟨strictEven, .none⟩ = .ok r ∧ report p r.even.contains = rs := by
  rw [checkQualitative, productGame]
  cases hp : ProductGame.build (.ofModel m a) coalition with
  | error e => simp [Except.mapError, bind, Except.bind]
  | ok p =>
    cases hr : o.qualitative.solve p.game ⟨strictEven, .none⟩ with
    | error e => simp [Except.mapError, hr, bind, Except.bind]
    | ok r => simp [Except.mapError, hr, bind, Except.bind, pure, Except.pure]

/-- In a model without distributions a check that answers for a coalition answers for every larger one,
and what it grants to the coalition it grants to the larger one, node by node. -/
theorem checkQualitative_true_of_subset (m : Model Float) (a : ExplicitAutomaton Nat) (C D : List Nat)
    (strictEven : Bool) (o : Options) (hm : ∀ node ∈ m.nodes.toList, node.isState = true)
    (hCD : ∀ c ∈ C, c ∈ D) (rs : List (Nat × Bool)) (h : m.checkQualitative a C strictEven o = .ok rs) :
    ∃ rs', m.checkQualitative a D strictEven o = .ok rs' ∧
      rs.map Prod.fst = m.initial ∧ rs'.map Prod.fst = m.initial ∧
      ∀ i v : Nat, rs[i]? = some (v, true) → rs'[i]? = some (v, true) := by
  obtain ⟨p, r, hp, hr, rfl⟩ := checkQualitative_eq_ok_iff.mp h
  have hexpl := ProductGraph.explored_new m a m.isState none
  obtain ⟨p', hp', -, hinitial, hhands⟩ := ProductGame.exists_build_of_subset hexpl hm hCD hp
  have hgains := o.qualitative.gains_solve ⟨strictEven, .none⟩ hhands
  obtain ⟨r', hr'⟩ := hgains.answered_iff.mp ⟨r, hr⟩
  have hstart := ProductGame.map_states_initial_of_build hp
  have hlen : m.initial.length = p.initial.length := by simpa using (congrArg List.length hstart).symm
  rw [report_eq _ hstart]
  refine ⟨_, checkQualitative_eq_ok_iff.mpr ⟨p', r', hp', hr', rfl⟩, ?_⟩
  rw [report_eq _ (ProductGame.map_states_initial_of_build hp'), hinitial]
  refine ⟨List.map_fst_zip (by simp [hlen]), List.map_fst_zip (by simp [hlen]), ?_⟩
  intro i v hv
  rw [List.getElem?_zip_eq_some, List.getElem?_map, Option.map_eq_some_iff] at hv ⊢
  obtain ⟨hinit, n, hn, heven⟩ := hv
  exact ⟨hinit, n, hn, (hgains.gains r r' hr hr').even n heven⟩

end Model

/-- Player 0 may go to a goal that is never left, or to a place that player 1 need not leave. -/
def Model.detour : Model Float where
  nodes := #[⟨.state 0 [], [⟨1, 1⟩, ⟨2, 1⟩]⟩, ⟨.state 1 [], [⟨0, 1⟩, ⟨1, 1⟩]⟩,
    ⟨.state 1 ["goal"], [⟨2, 1⟩]⟩]
  initial := [0, 1]

/-- Player 0 comes to the goal from the first node, alone or together with player 1. -/
theorem Model.checkQualitative_detour :
    (∀ node ∈ Model.detour.nodes.toList, node.isState = true) ∧ (∀ c ∈ [0], c ∈ [1, 0]) ∧
    ∃ a rs', ExplicitAutomaton.parity Description.recurrence = .ok a ∧
      Model.detour.checkQualitative a [0] false { solver := .gadget, twoPlayerSolver := .lifting } =
        .ok [(0, true), (1, false)] ∧
      Model.detour.checkQualitative a [1, 0] false { solver := .gadget, twoPlayerSolver := .lifting } =
        .ok rs' ∧ rs'.map Prod.fst = [0, 1] ∧ rs'[0]? = some (0, true) := by
  have hstates : ∀ node ∈ Model.detour.nodes.toList, node.isState = true := by decide
  have hsub : ∀ c ∈ [0], c ∈ [1, 0] := by decide
  have hrun : ((ExplicitAutomaton.parity Description.recurrence).toOption.bind fun a =>
      (Model.detour.checkQualitative a [0] false
        { solver := .gadget, twoPlayerSolver := .lifting }).toOption) =
      some [(0, true), (1, false)] := by decide +kernel
  obtain ⟨a, ha, hrun⟩ := Option.bind_eq_some_iff.mp hrun
  have hcheck := eq_ok_of_toOption hrun
  obtain ⟨rs', hrs', -, hnodes, htrue⟩ := Model.detour.checkQualitative_true_of_subset a [0] [1, 0] false
    { solver := .gadget, twoPlayerSolver := .lifting } hstates hsub _ hcheck
  exact ⟨hstates, hsub, a, rs', eq_ok_of_toOption ha, hcheck, hrs', hnodes, htrue 0 0 rfl⟩

end OmegaGames
