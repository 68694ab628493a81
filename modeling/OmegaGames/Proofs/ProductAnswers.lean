import OmegaGames.Proofs.ExplicitAutomata
import OmegaGames.Proofs.ProductDiscovery

/-!
# What a product answers

The nodes of a product may be asked for anything in any order. After all such calls, failed ones
included, the numbers of nodes and the product states behind them determine each other, and numbers that
have been given out keep their meaning. The successors of a node are the steps of the automaton paired
with the edges of the model, the steps changing slowest; weights and labels are found at the same
positions. Once the successors of a node have been given out, they are given out again whenever they are
asked for.
-/
namespace OmegaGames

namespace ProductGraph

variable {W A L : Type} [Automaton A L] {g : ProductGraph W A} {n : Nat} {s : ProductState}

/-! ## Positions -/

section Positions

variable {node : ModelNode W} {steps : List (Nat × Option Nat)} {t j q : Nat} {l : Option Nat} {edge : Edge W}

theorem length_targets (node : ModelNode W) (steps : List (Nat × Option Nat)) :
    (targets node steps).length = steps.length * node.edges.length := by
  induction steps with
  | nil => simp [targets]
  | cons r steps ih =>
    rw [targets] at ih
    rw [targets, List.flatMap_cons, List.length_append, ih, List.length_map, List.length_cons, Nat.succ_mul,
      Nat.add_comm]

theorem getElem?_targets (ht : steps[t]? = some (q, l)) (hj : node.edges[j]? = some edge) :
    (targets node steps)[t * node.edges.length + j]? = some ⟨edge.target, q⟩ := by
  have hlt : j < node.edges.length := (List.getElem?_eq_some_iff.mp hj).1
  rw [targets, getElem?_flatMap_of_length (fun _ _ => List.length_map _) ht hlt]
  simp [hj]

/-- Either all steps have labels or none has. -/
theorem StepsTo.labelled {moves : Nat → Bool} {a a' : A} {v : Nat} (h : StepsTo moves a v node q a' steps) :
    (∀ r ∈ steps, r.2 = none) ∨ ∀ r ∈ steps, ∃ l, r.2 = some l := by
  cases h with
  | stay => simp
  | first => exact Or.inr (List.forall_mem_map.mpr fun t _ => ⟨t.label, rfl⟩)
  | all => exact Or.inr (List.forall_mem_map.mpr fun t _ => ⟨t.label, rfl⟩)

theorem getElem?_edgeLabels (hsteps : (∀ r ∈ steps, r.2 = none) ∨ ∀ r ∈ steps, ∃ l, r.2 = some l)
    (ns : List Nat) (ht : steps[t]? = some (q, l)) (hj : node.edges[j]? = some edge) :
    (expansion false node steps ns).edgeLabels[t * node.edges.length + j]? = l := by
  have hlt : j < node.edges.length := (List.getElem?_eq_some_iff.mp hj).1
  have hmem := List.mem_of_getElem? ht
  rcases hsteps with hnone | hsome
  · -- Where the automaton does not move the list of labels is empty, whatever the position.
    have hempty : (expansion false node steps ns).edgeLabels = [] := by
      simp only [expansion, Bool.false_eq_true, if_false]
      rw [List.flatMap_eq_nil_iff]
      intro r hr
      simp [hnone r hr]
    have hl : l = none := hnone _ hmem
    rw [hempty, hl]
    rfl
  · have hlen : ∀ r ∈ steps, (node.edges.flatMap fun _ => r.2.toList).length = node.edges.length := by
      intro r hr
      obtain ⟨l', hl'⟩ := hsome r hr
      rw [hl', Option.toList_some, ← List.map_eq_flatMap, List.length_map]
    obtain ⟨l', hl'⟩ : ∃ l', l = some l' := hsome _ hmem
    simp only [expansion, Bool.false_eq_true, if_false]
    rw [getElem?_flatMap_of_length hlen ht hlt]
    simp only
    rw [hl', Option.toList_some, ← List.map_eq_flatMap, List.getElem?_map, hj]
    rfl

end Positions

/-! ## Calls -/

inductive Call where
  | initialNodes
  | successorCount (n : Nat)
  | successor (n i : Nat)
  | successors (n : Nat)
  | weight (n i : Nat)
  | nodeLabel (n : Nat)
  | edgeLabel (n i : Nat)
  | explore
deriving DecidableEq, Repr

/-- The product after a call, whether or not the call fails. -/
def after (g : ProductGraph W A) : Call → ProductGraph W A
  | .initialNodes => g.initialNodes.1
  | .successorCount n => (g.successorCount n).1
  | .successor n i => (g.successor n i).1
  | .successors n => (g.successors n).1
  | .weight n i => (g.weight n i).1
  | .nodeLabel n => (g.nodeLabel n).1
  | .edgeLabel n i => (g.edgeLabel n i).1
  | .explore => g.explore.1

def afterAll (g : ProductGraph W A) (calls : List Call) : ProductGraph W A := calls.foldl after g

theorem inspect_fst {α : Type} (g : ProductGraph W A) (n : Nat) (f : Expansion → Except ProductError α) :
    (g.inspect n f).1 = (g.expand n).1 := by
  rw [inspect]
  split <;> simp_all

theorem inspect_of_ok {α : Type} {e : Expansion} (h : (g.expand n).2 = .ok e)
    (f : Expansion → Except ProductError α) : (g.inspect n f).2 = f e := by
  rw [inspect]
  split <;> simp_all

theorem inspect_of_error {α : Type} {e : ProductError} (h : (g.expand n).2 = .error e)
    (f : Expansion → Except ProductError α) : (g.inspect n f).2 = .error e := by
  rw [inspect]
  split <;> simp_all

theorem successors_fst (g : ProductGraph W A) (n : Nat) : (g.successors n).1 = (g.expand n).1 :=
  g.inspect_fst n _

theorem weight_of_ok {e : Expansion} {i : Nat} {w : W} (h : (g.expand n).2 = .ok e)
    (hw : (g.expand n).1.modelWeight? n i = some w) : (g.weight n i).2 = .ok w := by
  rw [weight]
  cases hr : g.expand n with
  | mk g' r =>
    rw [hr] at h hw
    cases h
    simp only [hw]

theorem weight_fst (g : ProductGraph W A) (n i : Nat) : (g.weight n i).1 = (g.expand n).1 := by
  rw [weight]
  split
  · simp_all
  · split <;> simp_all

section Lawful

variable [LawfulAutomaton A]

theorem Tracked.exploreFrom (h : Tracked g) (steps next : Nat) :
    Tracked (exploreFrom steps next g).1 ∧ Continues g (exploreFrom steps next g).1 := by
  induction steps generalizing next g with
  | zero => exact ⟨h, .refl g⟩
  | succ steps ih =>
    have hexpand := h.expand next
    rw [ProductGraph.exploreFrom]
    split
    · split
      · rename_i heq
        rw [heq] at hexpand
        exact hexpand
      · rename_i heq
        rw [heq] at hexpand
        have hrest := ih hexpand.1 (next + 1)
        exact ⟨hrest.1, hexpand.2.trans hrest.2⟩
    · exact ⟨h, .refl g⟩

theorem Tracked.explore (h : Tracked g) : Tracked g.explore.1 ∧ Continues g g.explore.1 := by
  have hinitial := h.initialNodes
  rw [ProductGraph.explore]
  split
  · rename_i heq
    rw [heq] at hinitial
    exact hinitial
  · rename_i heq
    rw [heq] at hinitial
    have hrest := hinitial.1.exploreFrom expansionBound 0
    exact ⟨hrest.1, hinitial.2.trans hrest.2⟩

theorem Tracked.after (h : Tracked g) (c : Call) : Tracked (g.after c) ∧ Continues g (g.after c) := by
  cases c with
  | initialNodes => exact h.initialNodes
  | explore => exact h.explore
  | weight n i =>
    rw [ProductGraph.after, weight_fst]
    exact h.expand n
  | successorCount n | successor n i | successors n | nodeLabel n | edgeLabel n i =>
    simp only [ProductGraph.after, successorCount, successor, successors, nodeLabel, edgeLabel, inspect_fst]
    exact h.expand n

theorem Tracked.afterAll (h : Tracked g) (calls : List Call) :
    Tracked (g.afterAll calls) ∧ Continues g (g.afterAll calls) := by
  induction calls generalizing g with
  | nil => exact ⟨h, .refl g⟩
  | cons c calls ih =>
    have hfirst := h.after c
    have hrest := ih hfirst.1
    exact ⟨hrest.1, hfirst.2.trans hrest.2⟩

end Lawful

/-! ## Answers -/

/-- What is answered about a node with the given steps, whose successors have the numbers `ns`. -/
structure Answers (g : ProductGraph W A) (n : Nat) (node : ModelNode W) (steps : List (Nat × Option Nat))
    (ns : List Nat) : Prop where
  successors_eq : (g.successors n).2 = .ok ns
  length_eq : ns.length = steps.length * node.edges.length
  successorCount_eq : (g.successorCount n).2 = .ok ns.length
  successor_eq : ∀ i (h : i < ns.length), (g.successor n i).2 = .ok ns[i]
  nodeLabel_eq : (g.nodeLabel n).2 =
    .ok (if Automaton.isDeterministic g.automaton then steps.head?.bind Prod.snd else none)
  /-- The steps change slowest: edge `j` of the model after step `t`. -/
  position : ∀ t j q l edge, steps[t]? = some (q, l) → node.edges[j]? = some edge →
    (∃ k, ns[t * node.edges.length + j]? = some k ∧
      (g.successors n).1.state? k = some ⟨edge.target, q⟩) ∧
    (g.weight n (t * node.edges.length + j)).2 = .ok edge.weight ∧
    (Automaton.isDeterministic g.automaton = false →
      (g.edgeLabel n (t * node.edges.length + j)).2 = .ok l)

theorem modelWeight?_eq {node : ModelNode W} {edge : Edge W} {t j : Nat} (hs : g.state? n = some s)
    (hnode : g.model.nodes[s.model]? = some node) (hj : node.edges[j]? = some edge) :
    g.modelWeight? n (t * node.edges.length + j) = some edge.weight := by
  have hlt : j < node.edges.length := (List.getElem?_eq_some_iff.mp hj).1
  have hmod : (t * node.edges.length + j) % node.edges.length = j := by
    rw [Nat.add_comm, Nat.add_mul_mod_self_right, Nat.mod_eq_of_lt hlt]
  simp [modelWeight?, hs, hnode, hmod, hj]

theorem Lists.answers [LawfulAutomaton A] {node : ModelNode W} {steps : List (Nat × Option Nat)}
    {e : Expansion} (hc : Continues g (g.expand n).1) (he : (g.expand n).2 = .ok e)
    (hl : Lists (g.expand n).1 n s node steps e) : Answers g n node steps e.successors := by
  have hdet := hc.queried.isDeterministic_eq
  have hexp := hl.eq_expansion
  rw [hdet] at hexp
  have hlen : e.successors.length = steps.length * node.edges.length := by
    have hmap := congrArg List.length hl.successors_eq
    rwa [List.length_map, List.length_map, length_targets] at hmap
  refine ⟨inspect_of_ok he _, hlen, inspect_of_ok he _, fun i hi => ?_, ?_, ?_⟩
  · rw [successor, inspect_of_ok he, List.getElem?_eq_getElem hi]
  · rw [nodeLabel, inspect_of_ok he, hexp]
    rfl
  · intro t j q l edge ht hj
    refine ⟨?_, ?_, fun hnondet => ?_⟩
    · have hget := congrArg (·[t * node.edges.length + j]?) hl.successors_eq
      simp only [List.getElem?_map, getElem?_targets ht hj, Option.map_some] at hget
      obtain ⟨k, hk, hstate⟩ := Option.map_eq_some_iff.mp hget
      rw [successors_fst]
      exact ⟨k, hk, hstate⟩
    · exact weight_of_ok he (modelWeight?_eq hl.opens.state_eq hl.opens.node_eq hj)
    · rw [edgeLabel, inspect_of_ok he, hexp, hnondet]
      exact congrArg Except.ok (getElem?_edgeLabels hl.opens.stepsTo.labelled _ ht hj)

/-- A product whose discovery does not show in its answers. -/
structure Transparent (g : ProductGraph W A) : Prop where
  /-- No two nodes have the same product state. -/
  injective : ∀ n n' s, g.state? n = some s → g.state? n' = some s → n = n'
  /-- Nodes and their product states determine each other. -/
  inverse : ∀ n s, g.state? n = some s ↔ g.nodeOf? s = some n
  /-- Numbers keep their meaning whatever is asked later. -/
  kept : ∀ calls n s, g.state? n = some s →
    (g.afterAll calls).state? n = some s ∧ (g.afterAll calls).nodeOf? s = some n
  /-- A node is answered for unless one of its successors cannot be entered. -/
  answers : ∀ n s node a steps, Opens g n s node a steps →
    (∃ ns, Answers g n node steps ns) ∨
      ∃ t ∈ targets node steps, ∃ e, Refuses (g.successors n).1 t e ∧ (g.successors n).2 = .error e
  /-- Successors that have been given out are given out again, whatever is asked in between. -/
  repeated : ∀ n ns calls, (g.successors n).2 = .ok ns →
    (((g.successors n).1.afterAll calls).successors n).2 = .ok ns

theorem Tracked.nodeOf?_eq (h : Tracked g) (hs : g.state? n = some s) : g.nodeOf? s = some n := by
  obtain ⟨w, hget, rfl⟩ := Option.map_eq_some_iff.mp hs
  rw [nodeOf?, ProductState.pack_eq_ok_iff.mpr rfl]
  exact h.distinct.find?_of_get? hget

theorem state?_of_nodeOf? (h : g.nodeOf? s = some n) : g.state? n = some s := by
  rw [nodeOf?] at h
  cases hw : s.pack with
  | error e =>
    rw [hw] at h
    cases h
  | ok w =>
    rw [hw] at h
    exact (state?_eq_some_iff hw).mpr (Interner.get?_of_find? h)

theorem Tracked.transparent [LawfulAutomaton A] (h : Tracked g) : Transparent g where
  injective n n' s hn hn' := state?_inj h.distinct hn hn'
  inverse n s := ⟨h.nodeOf?_eq, state?_of_nodeOf?⟩
  kept calls n s hs := by
    have hlater := h.afterAll calls
    have hstate := hlater.2.state? hs
    exact ⟨hstate, hlater.1.nodeOf?_eq hstate⟩
  answers n s node a steps ho := by
    cases he : (g.expand n).2 with
    | ok e =>
      left
      obtain ⟨s', node', a', steps', ho', hl⟩ := h.exists_lists he
      obtain ⟨rfl, rfl, rfl, rfl⟩ := ho.unique ho'
      exact ⟨e.successors, hl.answers (h.expand n).2 he⟩
    | error e =>
      right
      obtain ⟨t, ht, hrefuses⟩ := refuses_of_expand ho he
      refine ⟨t, ht, e, ?_, inspect_of_error he _⟩
      rwa [successors_fst]
  repeated n ns calls hns := by
    rw [successors_fst]
    cases he : (g.expand n).2 with
    | error e =>
      rw [successors, inspect_of_error he] at hns
      cases hns
    | ok e =>
      rw [successors, inspect_of_ok he] at hns
      obtain ⟨s, node, a, steps, -, hl⟩ := h.exists_lists he
      have hlater := (h.expand n).1.afterAll calls
      have hagain := (hl.continues hlater.2).expand_eq hlater.1
      rw [successors, inspect_of_ok hagain, hns]

/-- Whatever has been asked of a product, its answers are those of the model and the automaton. -/
theorem transparent_afterAll [LawfulAutomaton A] (m : Model W) (a : A) (moves : Nat → Bool)
    (limit : Option Nat) (calls : List Call) :
    Continues { model := m, automaton := a, moves := moves, limit := limit }
        (afterAll { model := m, automaton := a, moves := moves, limit := limit } calls) ∧
      Transparent (afterAll { model := m, automaton := a, moves := moves, limit := limit } calls) := by
  have hrun := (tracked_new m a moves limit).afterAll calls
  exact ⟨hrun.2, hrun.1.transparent⟩

end ProductGraph

/-- Guesses once that the goal will not be seen again. -/
def ExplicitAutomaton.guess : ExplicitAutomaton Nat where
  expressions := ["goal"]
  initial := 0
  deterministic := false
  edges := #[[⟨.always, 0, 0⟩, ⟨.not (.ap 0), 1, 1⟩], [⟨.not (.ap 0), 1, 1⟩], []]
  labels := ⟨#[1, 0]⟩
  sink := ⟨2, 0⟩

/-- The goal, from where chance leads back to it or on to the other node. -/
def Model.roundabout : Model Nat where
  nodes := #[⟨.state 0 ["goal"], [⟨1, 2⟩]⟩, ⟨.distribution, [⟨0, 1⟩, ⟨2, 3⟩]⟩, ⟨.state 1 [], [⟨0, 1⟩, ⟨1, 1⟩]⟩]
  initial := [0]

namespace ProductGraph

/-- Two guesses in lockstep, with room for eight nodes: exploring fails, and the answers stay right. -/
theorem transparent_roundabout : ∃ (p : Lockstep Nat) (g : ProductGraph Nat (Lockstep Nat)),
    Lockstep.ofComponents [ExplicitAutomaton.guess, ExplicitAutomaton.guess] = .ok p ∧
    g = { model := Model.roundabout, automaton := p, moves := Model.roundabout.isState, limit := some 8 } ∧
    g.explore.2 = .error (.insufficientStates 8) ∧
    Transparent (g.afterAll [.explore, .successors 2, .weight 0 0, .edgeLabel 2 3, .explore]) := by
  have hrun : ((Lockstep.ofComponents [ExplicitAutomaton.guess, ExplicitAutomaton.guess]).toOption.map
      fun p => (explore { model := Model.roundabout, automaton := p, moves := Model.roundabout.isState,
                          limit := some 8 }).2) = some (.error (.insufficientStates 8)) := by
    decide +kernel
  obtain ⟨p, hp, hexplore⟩ := Option.map_eq_some_iff.mp hrun
  exact ⟨p, _, eq_ok_of_toOption hp, rfl, hexplore,
    (transparent_afterAll Model.roundabout p Model.roundabout.isState (some 8) _).2⟩

end ProductGraph

end OmegaGames
