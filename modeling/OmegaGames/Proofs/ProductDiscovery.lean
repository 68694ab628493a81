import OmegaGames.Proofs.LawfulAutomata
import OmegaGames.Proofs.PackedStates

/-!
# Discovering a product

Whatever is asked of a product, and also where it fails, the nodes reached before keep their numbers, no
product state gets two numbers, and what is remembered is what would be computed again. An expansion
that is given out lists the nodes of the model's successors paired with the states after the automaton's
steps.
-/
namespace OmegaGames
namespace ProductGraph

open Relation

variable {W A L : Type} [Automaton A L] {g g' g'' : ProductGraph W A} {s t : ProductState} {n : Nat}

/-! ## Reaching states -/

def Within (g : ProductGraph W A) : Prop := ∀ limit, g.limit = some limit → g.nodeCount ≤ limit

/-- Why a product state is not entered: a half does not fit, or the state is new and there is no room. -/
inductive Refuses (g : ProductGraph W A) (s : ProductState) : ProductError → Prop
  | large (hfits : s.fits = false) : Refuses g s (.insufficientStates ProductState.halfLimit)
  | full {limit : Nat} (hlimit : g.limit = some limit) (hfull : limit ≤ g.nodeCount)
      (hnew : s ∉ g.states) : Refuses g s (.insufficientStates limit)

theorem Refuses.withCache {e : ProductError} (h : Refuses g s e) (c : Expansion) :
    Refuses { g with cache := c } s e := by
  cases h with
  | large hfits => exact .large hfits
  | full hlimit hfull hnew => exact .full hlimit hfull hnew

/-- The nodes of `g` are in `g'` under the same numbers, with none but the states `ss` added. -/
structure Grows (ss : List ProductState) (g g' : ProductGraph W A) : Prop where
  frame : g' = { g with nodes := g'.nodes }
  keeps : g.nodes.Extends g'.nodes
  distinct : g.nodes.Distinct → g'.nodes.Distinct
  within : g.Within → g'.Within
  added : ∀ s ∈ g'.states, s ∈ g.states ∨ s ∈ ss

theorem Grows.refl (ss : List ProductState) (g : ProductGraph W A) : Grows ss g g where
  frame := rfl
  keeps := .refl _
  distinct := id
  within := id
  added _ hs := Or.inl hs

theorem Grows.trans {ss : List ProductState} (h : Grows [s] g g') (h' : Grows ss g' g'') :
    Grows (s :: ss) g g'' where
  frame := by
    have hg := h'.frame
    rw [h.frame] at hg
    exact hg
  keeps := h.keeps.trans h'.keeps
  distinct hd := h'.distinct (h.distinct hd)
  within hw := h'.within (h.within hw)
  added t ht := by
    rcases h'.added t ht with hold | hmem
    · rcases h.added t hold with hold | hmem
      · exact Or.inl hold
      · exact Or.inr (List.mem_cons.mpr (Or.inl (List.mem_singleton.mp hmem)))
    · exact Or.inr (List.mem_cons_of_mem s hmem)

/-- Reaching a state either changes nothing or enters its word. -/
theorem reach_cases (g : ProductGraph W A) (s : ProductState) :
    (∃ e, Refuses g s e ∧ g.reach s = (g, .error e)) ∨
      ∃ w, s.pack = .ok w ∧ (∀ limit, g.limit = some limit → s ∈ g.states ∨ g.nodeCount < limit) ∧
        g.reach s = ({ g with nodes := (g.nodes.intern w).1 }, .ok (g.nodes.intern w).2.1) := by
  cases hfits : s.fits with
  | false => exact Or.inl ⟨_, .large hfits, by simp [reach, ProductState.pack_of_not_fits hfits]⟩
  | true =>
    obtain ⟨w, hw⟩ : ∃ w, s.pack = .ok w := ⟨_, ProductState.pack_of_fits hfits⟩
    cases hfind : g.nodes.find? w with
    | some n =>
      right
      have hold : g.nodes.intern w = (g.nodes, n, false) := by simp [Interner.intern, hfind]
      have hmem : s ∈ g.states := (mem_states_iff hw).mpr (Interner.mem_of_get? (Interner.get?_of_find? hfind))
      refine ⟨w, hw, fun _ _ => Or.inl hmem, ?_⟩
      simp [reach, hw, hfind, hold]
    | none =>
      cases hlimit : g.limit with
      | none =>
        right
        exact ⟨w, hw, by simp, by simp [reach, hw, hfind, hlimit]⟩
      | some limit =>
        by_cases hroom : limit ≤ g.nodeCount
        · left
          have hnew : s ∉ g.states := mt (mem_states_iff hw).mp (Interner.find?_eq_none_iff.mp hfind)
          exact ⟨_, .full hlimit hroom hnew, by simp [reach, hw, hfind, hlimit, hroom]⟩
        · right
          refine ⟨w, hw, fun limit' hlimit' => Or.inr ?_, ?_⟩
          · cases hlimit'
            omega
          · simp [reach, hw, hfind, hlimit, hroom]

theorem grows_reach (g : ProductGraph W A) (s : ProductState) : Grows [s] g (g.reach s).1 := by
  rcases g.reach_cases s with ⟨e, -, h⟩ | ⟨w, hw, hroom, h⟩
  · rw [h]
    exact .refl [s] g
  · rw [h]
    refine ⟨rfl, g.nodes.extends_intern w, fun hd => hd.intern w, fun hwithin limit hlimit => ?_, fun t ht => ?_⟩
    · have hle := hwithin limit hlimit
      rcases g.nodes.intern_cases w with ⟨i, -, heq⟩ | ⟨hnew, heq⟩
      · simpa [nodeCount, heq] using hle
      · rcases hroom limit hlimit with hold | hlt
        · exact absurd ((mem_states_iff hw).mp hold) hnew
        · simp only [nodeCount, Interner.size, heq, Array.size_push] at hlt ⊢
          omega
    · obtain ⟨w', hmem, rfl⟩ := List.mem_map.mp ht
      rcases Interner.mem_intern.mp hmem with hold | rfl
      · exact Or.inl (List.mem_map_of_mem hold)
      · exact Or.inr (List.mem_singleton.mpr (ProductState.pack_eq_ok_iff.mp hw))

/-- What is remembered plays no part. -/
theorem reach_withCache (g : ProductGraph W A) (e : Expansion) (s : ProductState) :
    reach { g with cache := e } s = ({ (g.reach s).1 with cache := e }, (g.reach s).2) := by
  unfold reach
  cases s.pack with
  | error e' => rfl
  | ok w =>
    dsimp only
    cases g.nodes.find? w with
    | some n => rfl
    | none =>
      cases hlimit : g.limit with
      | none => rfl
      | some limit =>
        by_cases hroom : limit ≤ g.nodes.size <;> simp [nodeCount, hlimit, hroom]

theorem reachAll_cons_of_error {e : ProductError} (h : g.reach s = (g', .error e))
    (ss : List ProductState) : g.reachAll (s :: ss) = (g', .error e) := by
  simp [reachAll, h]

theorem reachAll_cons_of_ok (h : g.reach s = (g', .ok n)) (ss : List ProductState) :
    g.reachAll (s :: ss) = ((g'.reachAll ss).1, (g'.reachAll ss).2.map (n :: ·)) := by
  simp only [reachAll, h]
  cases g'.reachAll ss with
  | mk g'' r =>
    cases r with
    | error e => rfl
    | ok ns => rfl

theorem grows_reachAll (g : ProductGraph W A) (ss : List ProductState) :
    Grows ss g (g.reachAll ss).1 := by
  induction ss generalizing g with
  | nil => exact .refl [] g
  | cons s ss ih =>
    have hfirst := g.grows_reach s
    cases hr : g.reach s with
    | mk g' r =>
      rw [hr] at hfirst
      cases r with
      | error e =>
        rw [reachAll_cons_of_error hr]
        exact hfirst.trans (.refl ss g')
      | ok n =>
        rw [reachAll_cons_of_ok hr]
        exact hfirst.trans (ih g')

theorem map_state?_reachAll {ss : List ProductState} {ns : List Nat} (h : (g.reachAll ss).2 = .ok ns) :
    ns.map (g.reachAll ss).1.state? = ss.map some := by
  induction ss generalizing g ns with
  | nil =>
    cases h
    rfl
  | cons s ss ih =>
    rcases g.reach_cases s with ⟨e, -, hr⟩ | ⟨w, hw, -, hr⟩
    · rw [reachAll_cons_of_error hr] at h
      cases h
    · rw [reachAll_cons_of_ok hr] at h ⊢
      have hgrows := grows_reachAll { g with nodes := (g.nodes.intern w).1 } ss
      have hnumber := (state?_eq_some_iff hw).mpr (hgrows.keeps.get? (g.nodes.get?_intern w))
      cases hrest : (reachAll { g with nodes := (g.nodes.intern w).1 } ss).2 with
      | error e =>
        rw [hrest] at h
        cases h
      | ok ns' =>
        rw [hrest] at h
        cases h
        rw [List.map_cons, List.map_cons, ih hrest]
        exact congrArg (· :: ss.map some) hnumber

theorem refuses_of_reachAll {ss : List ProductState} {e : ProductError} (h : (g.reachAll ss).2 = .error e) :
    ∃ s ∈ ss, Refuses (g.reachAll ss).1 s e := by
  induction ss generalizing g with
  | nil => cases h
  | cons s ss ih =>
    rcases g.reach_cases s with ⟨e', hrefuses, hr⟩ | ⟨w, -, -, hr⟩
    · rw [reachAll_cons_of_error hr] at h ⊢
      cases h
      exact ⟨s, List.mem_cons_self, hrefuses⟩
    · rw [reachAll_cons_of_ok hr] at h ⊢
      cases hrest : (reachAll { g with nodes := (g.nodes.intern w).1 } ss).2 with
      | error e' =>
        rw [hrest] at h
        cases h
        obtain ⟨t, ht, hrefuses⟩ := ih hrest
        exact ⟨t, List.mem_cons_of_mem s ht, hrefuses⟩
      | ok ns =>
        rw [hrest] at h
        cases h

/-- States that have numbers keep them, and nothing changes. -/
theorem reachAll_of_map_state? (hd : g.nodes.Distinct) {ss : List ProductState} {ns : List Nat}
    (h : ns.map g.state? = ss.map some) : g.reachAll ss = (g, .ok ns) := by
  induction ss generalizing ns with
  | nil =>
    rw [List.map_nil, List.map_eq_nil_iff] at h
    rw [h]
    rfl
  | cons s ss ih =>
    cases ns with
    | nil => cases h
    | cons n ns =>
      rw [List.map_cons, List.map_cons, List.cons.injEq] at h
      obtain ⟨w, hget, rfl⟩ := Option.map_eq_some_iff.mp h.1
      have hreach : g.reach (.unpack w) = (g, .ok n) := by
        simp [reach, ProductState.pack_eq_ok_iff.mpr rfl, hd.find?_of_get? hget]
      rw [reachAll_cons_of_ok hreach, ih h.2]
      rfl

def initialStates (g : ProductGraph W A) : List ProductState :=
  g.model.initial.map fun v => ⟨v, Automaton.initial g.automaton⟩

theorem initialNodes_cases (g : ProductGraph W A) :
    (∃ ns, g.initial = some ns ∧ g.initialNodes = (g, .ok ns)) ∨
      (∃ g' e, g.reachAll g.initialStates = (g', .error e) ∧ g.initialNodes = (g', .error e)) ∨
      ∃ g' ns, g.reachAll g.initialStates = (g', .ok ns) ∧
        g.initialNodes = ({ g' with initial := some ns }, .ok ns) := by
  cases hinit : g.initial with
  | some ns => exact Or.inl ⟨ns, rfl, by simp [initialNodes, hinit]⟩
  | none =>
    right
    cases hr : g.reachAll g.initialStates with
    | mk g' r =>
      cases r with
      | error e =>
        refine Or.inl ⟨g', e, rfl, ?_⟩
        rw [initialStates] at hr
        simp only [initialNodes, hinit, hr]
      | ok ns =>
        refine Or.inr ⟨g', ns, rfl, ?_⟩
        rw [initialStates] at hr
        simp only [initialNodes, hinit, hr]

/-! ## Steps -/

/-- The steps of the automaton at a node of the model, each with its label, and the automaton after
them. A deterministic automaton takes the first transition only; where it does not move there is no
change. -/
inductive StepsTo (moves : Nat → Bool) (a : A) (v : Nat) (node : ModelNode W) (q : Nat) :
    A → List (Nat × Option Nat) → Prop
  | stay (hmoves : moves v = false) : StepsTo moves a v node q a [(q, none)]
  | first {a' : A} {ts : List Transition} (hmoves : moves v = true)
      (hquery : Automaton.query? a (node.valuation (Automaton.expressions a)) q = some (a', ts))
      (hdet : Automaton.isDeterministic a' = true) :
      StepsTo moves a v node q a' ((ts.take 1).map fun t => (t.state, some t.label))
  | all {a' : A} {ts : List Transition} (hmoves : moves v = true)
      (hquery : Automaton.query? a (node.valuation (Automaton.expressions a)) q = some (a', ts))
      (hdet : Automaton.isDeterministic a' = false) :
      StepsTo moves a v node q a' (ts.map fun t => (t.state, some t.label))

theorem steps?_eq_some_iff {v q : Nat} {node : ModelNode W} {a : A} {steps : List (Nat × Option Nat)} :
    g.steps? v node q = some (a, steps) ↔ StepsTo g.moves g.automaton v node q a steps := by
  constructor
  · intro h
    rw [steps?] at h
    cases hmoves : g.moves v with
    | false =>
      rw [hmoves] at h
      cases h
      exact .stay hmoves
    | true =>
      rw [hmoves] at h
      obtain ⟨⟨a', ts⟩, hquery, h⟩ := Option.bind_eq_some_iff.mp h
      cases h
      cases hdet : Automaton.isDeterministic a with
      | true => exact .first hmoves hquery hdet
      | false => exact .all hmoves hquery hdet
  · intro h
    cases h with
    | stay hmoves => simp [steps?, hmoves]
    | first hmoves hquery hdet => simp [steps?, hmoves, hquery, hdet]
    | all hmoves hquery hdet => simp [steps?, hmoves, hquery, hdet]

/-! ## The same product later on -/

/-- What is left of a product when something is asked of it. -/
structure Continues (g g' : ProductGraph W A) : Prop where
  model : g'.model = g.model
  moves : g'.moves = g.moves
  limit : g'.limit = g.limit
  queried : Automaton.Queried g.automaton g'.automaton
  keeps : g.nodes.Extends g'.nodes
  within : g.Within → g'.Within

theorem Continues.trans (h : Continues g g') (h' : Continues g' g'') : Continues g g'' :=
  ⟨h'.model.trans h.model, h'.moves.trans h.moves, h'.limit.trans h.limit, h.queried.trans h'.queried,
    h.keeps.trans h'.keeps, fun hw => h'.within (h.within hw)⟩

/-- What is remembered besides the nodes may be anything. -/
theorem continues_remember (g : ProductGraph W A) (initial : Option (List Nat)) (last : Option Nat)
    (cache : Expansion) : Continues g { g with initial, last, cache } :=
  ⟨rfl, rfl, rfl, .refl, .refl _, id⟩

theorem Continues.refl (g : ProductGraph W A) : Continues g g := g.continues_remember _ _ _

theorem Continues.state? (h : Continues g g') (hs : g.state? n = some s) : g'.state? n = some s :=
  state?_of_extends h.keeps hs

theorem Grows.continues {ss : List ProductState} (h : Grows ss g g') : Continues g g' := by
  refine ⟨?_, ?_, ?_, ?_, h.keeps, h.within⟩
  · rw [h.frame]
  · rw [h.frame]
  · rw [h.frame]
  · rw [h.frame]
    exact .refl

theorem Continues.initialStates [LawfulAutomaton A] (h : Continues g g') :
    g'.initialStates = g.initialStates := by
  simp only [ProductGraph.initialStates, h.model, h.queried.initial_eq]

section Steps

variable {moves : Nat → Bool} {a a' a'' : A} {v q : Nat} {node : ModelNode W}
  {steps : List (Nat × Option Nat)}

theorem StepsTo.queried (h : StepsTo moves a v node q a' steps) : Automaton.Queried a a' := by
  cases h with
  | stay => exact .refl
  | first _ hquery _ => exact .single ⟨_, _, _, hquery⟩
  | all _ hquery _ => exact .single ⟨_, _, _, hquery⟩

/-- Steps that have been taken are the same later on, and change nothing. -/
theorem StepsTo.again [LawfulAutomaton A] (h : StepsTo moves a v node q a' steps)
    (hqueried : Automaton.Queried a' a'') : StepsTo moves a'' v node q a'' steps := by
  -- The expressions stay the same, so the same question is asked.
  have hexpressions := (h.queried.trans hqueried).expressions_eq
  have hsame := hqueried.isDeterministic_eq
  cases h with
  | stay hmoves => exact .stay hmoves
  | first hmoves hquery hdet =>
    have hagain := hqueried.query?_eq (LawfulAutomaton.query?_again hquery)
    rw [← hexpressions] at hagain
    exact .first hmoves hagain (hsame.trans hdet)
  | all hmoves hquery hdet =>
    have hagain := hqueried.query?_eq (LawfulAutomaton.query?_again hquery)
    rw [← hexpressions] at hagain
    exact .all hmoves hagain (hsame.trans hdet)

end Steps

/-! ## Expansions -/

/-- Pairs every step with every model successor, the steps changing slowest. -/
def targets (node : ModelNode W) (steps : List (Nat × Option Nat)) : List ProductState :=
  steps.flatMap fun (q, _) => node.edges.map fun e => ⟨e.target, q⟩

def expansion (deterministic : Bool) (node : ModelNode W) (steps : List (Nat × Option Nat))
    (successors : List Nat) : Expansion :=
  { successors
    nodeLabel := if deterministic then steps.head?.bind Prod.snd else none
    edgeLabels :=
      if deterministic then []
      else steps.flatMap fun (_, l) => node.edges.flatMap fun _ => l.toList }

theorem map_fst_labelledTargets (node : ModelNode W) (steps : List (Nat × Option Nat)) :
    (labelledTargets node steps).map Prod.fst = targets node steps := by
  simp [labelledTargets, targets, List.map_flatMap, Function.comp_def]

theorem flatMap_snd_labelledTargets (node : ModelNode W) (steps : List (Nat × Option Nat)) :
    (labelledTargets node steps).flatMap (fun t => t.2.toList) =
      steps.flatMap fun (_, l) => node.edges.flatMap fun _ => l.toList := by
  simp [labelledTargets, List.flatMap_assoc, List.flatMap_map]

/-- The product state of a node, its model node, and the steps of the automaton there. -/
structure Opens (g : ProductGraph W A) (n : Nat) (s : ProductState) (node : ModelNode W) (a : A)
    (steps : List (Nat × Option Nat)) : Prop where
  state_eq : g.state? n = some s
  node_eq : g.model.nodes[s.model]? = some node
  stepsTo : StepsTo g.moves g.automaton s.model node s.automaton a steps

theorem Opens.unique {s' : ProductState} {node node' : ModelNode W} {a a' : A}
    {steps steps' : List (Nat × Option Nat)} (h : Opens g n s node a steps)
    (h' : Opens g n s' node' a' steps') : s' = s ∧ node' = node ∧ a' = a ∧ steps' = steps := by
  cases h.state_eq.symm.trans h'.state_eq
  cases h.node_eq.symm.trans h'.node_eq
  cases (steps?_eq_some_iff.mpr h.stepsTo).symm.trans (steps?_eq_some_iff.mpr h'.stepsTo)
  exact ⟨rfl, rfl, rfl, rfl⟩

theorem Opens.model_lt {node : ModelNode W} {a : A} {steps : List (Nat × Option Nat)}
    (h : Opens g n s node a steps) : s.model < g.model.size :=
  (Array.getElem?_eq_some_iff.mp h.node_eq).1

/-- An expansion lists the successors of a node, and computing it again would not change the automaton. -/
structure Lists (g : ProductGraph W A) (n : Nat) (s : ProductState) (node : ModelNode W)
    (steps : List (Nat × Option Nat)) (e : Expansion) : Prop where
  opens : Opens g n s node g.automaton steps
  successors_eq : e.successors.map g.state? = (targets node steps).map some
  eq_expansion : e = expansion (Automaton.isDeterministic g.automaton) node steps e.successors

theorem Lists.continues [LawfulAutomaton A] {node : ModelNode W} {steps : List (Nat × Option Nat)}
    {e : Expansion} (h : Lists g n s node steps e) (hc : Continues g g') : Lists g' n s node steps e where
  opens :=
    { state_eq := hc.state? h.opens.state_eq
      node_eq := by rw [hc.model, h.opens.node_eq]
      stepsTo := by
        rw [hc.moves]
        exact h.opens.stepsTo.again hc.queried }
  successors_eq := map_state?_of_extends hc.keeps h.successors_eq
  eq_expansion := by
    rw [hc.queried.isDeterministic_eq]
    exact h.eq_expansion

structure Tracked (g : ProductGraph W A) : Prop where
  distinct : g.nodes.Distinct
  initial : ∀ ns, g.initial = some ns → ns.map g.state? = g.initialStates.map some
  last : ∀ n, g.last = some n → ∃ s node steps, Lists g n s node steps g.cache

theorem tracked_new (m : Model W) (a : A) (moves : Nat → Bool) (limit : Option Nat) :
    Tracked { model := m, automaton := a, moves := moves, limit := limit } where
  distinct := List.nodup_nil
  initial ns hns := by cases hns
  last n hlast := by cases hlast

theorem within_new (m : Model W) (a : A) (moves : Nat → Bool) (limit : Option Nat) :
    Within { model := m, automaton := a, moves := moves, limit := limit } :=
  fun limit _ => Nat.zero_le limit

/-- What is remembered does not count unless it is complete. -/
theorem Tracked.withCache (h : Tracked g) (hlast : g.last = none) (e : Expansion) :
    Tracked { g with cache := e } where
  distinct := h.distinct
  initial := h.initial
  last n hn := by cases hlast.symm.trans hn

section Lawful

variable [LawfulAutomaton A]

theorem Tracked.grow {ss : List ProductState} (h : Tracked g) (hgrows : Grows ss g g') : Tracked g' where
  distinct := hgrows.distinct h.distinct
  initial ns hns := by
    have hold : g.initial = some ns := by rw [← hns, hgrows.frame]
    rw [hgrows.continues.initialStates]
    exact map_state?_of_extends hgrows.keeps (h.initial ns hold)
  last n hlast := by
    have hold : g.last = some n := by rw [← hlast, hgrows.frame]
    have hcache : g'.cache = g.cache := by rw [hgrows.frame]
    obtain ⟨s, node, steps, hlists⟩ := h.last n hold
    rw [hcache]
    exact ⟨s, node, steps, hlists.continues hgrows.continues⟩

theorem Tracked.query (h : Tracked g) {a : A} (ha : Automaton.Queried g.automaton a) :
    Tracked { g with last := none, automaton := a } where
  distinct := h.distinct
  initial ns hns := by
    simp only [initialStates, ha.initial_eq]
    exact h.initial ns hns
  last n hlast := by cases hlast

/-! ### Initial nodes -/

theorem Tracked.initialNodes (h : Tracked g) : Tracked g.initialNodes.1 ∧ Continues g g.initialNodes.1 := by
  have hgrows := g.grows_reachAll g.initialStates
  have hentered := h.grow hgrows
  have hc := hgrows.continues
  rcases g.initialNodes_cases with ⟨ns, -, heq⟩ | ⟨g', e, hr, heq⟩ | ⟨g', ns, hr, heq⟩
  · rw [heq]
    exact ⟨h, .refl g⟩
  · rw [hr] at hentered hc
    rw [heq]
    exact ⟨hentered, hc⟩
  · have hmap := map_state?_reachAll (congrArg Prod.snd hr)
    rw [hr] at hentered hc hmap
    rw [heq]
    have hset := g'.continues_remember (some ns) g'.last g'.cache
    refine ⟨⟨hentered.distinct, ?_, ?_⟩, hc.trans hset⟩
    · intro ns' hns'
      cases hns'
      rw [← hc.initialStates] at hmap
      exact hmap
    · intro n hlast
      obtain ⟨s, node, steps, hlists⟩ := hentered.last n hlast
      exact ⟨s, node, steps, hlists.continues hset⟩

theorem Tracked.map_state?_initialNodes (h : Tracked g) {ns : List Nat} (hns : g.initialNodes.2 = .ok ns) :
    ns.map g.initialNodes.1.state? = g.initialStates.map some := by
  have hinit : g.initialNodes.1.initial = some ns := by
    rcases g.initialNodes_cases with ⟨ns', hold, heq⟩ | ⟨g', e, -, heq⟩ | ⟨g', ns', -, heq⟩
    · rw [heq] at hns ⊢
      cases hns
      exact hold
    · rw [heq] at hns
      cases hns
    · rw [heq] at hns ⊢
      cases hns
      rfl
  rw [h.initialNodes.1.initial ns hinit, h.initialNodes.2.initialStates]

end Lawful

theorem mem_initialNodes (h : s ∈ g.initialNodes.1.states) : s ∈ g.states ∨ s ∈ g.initialStates := by
  have hadded := (g.grows_reachAll g.initialStates).added s
  rcases g.initialNodes_cases with ⟨ns, -, heq⟩ | ⟨g', e, hr, heq⟩ | ⟨g', ns, hr, heq⟩
  · rw [heq] at h
    exact Or.inl h
  · rw [heq] at h
    rw [hr] at hadded
    exact hadded h
  · rw [heq] at h
    rw [hr] at hadded
    exact hadded h

/-! ### Computing and remembering -/

/-- The successors of a node are entered like any states, and remembered behind those that were before. -/
theorem enter_cases (deterministic : Bool) (g : ProductGraph W A) (c : Expansion)
    (ts : List (ProductState × Option Nat)) :
    (∃ g' e c', g.reachAll (ts.map Prod.fst) = (g', .error e) ∧
        enter deterministic { g with cache := c } ts = ({ g' with cache := c' }, .error e)) ∨
      ∃ g' ns, g.reachAll (ts.map Prod.fst) = (g', .ok ns) ∧
        enter deterministic { g with cache := c } ts =
          ({ g' with cache :=
              { c with
                successors := c.successors ++ ns
                edgeLabels := c.edgeLabels ++
                  if deterministic then [] else ts.flatMap fun t => t.2.toList } }, .ok ()) := by
  induction ts generalizing g c with
  | nil => exact Or.inr ⟨g, [], rfl, by simp [enter]⟩
  | cons t ts ih =>
    obtain ⟨s, label⟩ := t
    have hcache := g.reach_withCache c s
    cases hr : g.reach s with
    | mk g₁ r =>
      rw [hr] at hcache
      cases r with
      | error e =>
        exact Or.inl ⟨g₁, e, c, reachAll_cons_of_error hr _, by simp only [enter, hcache]⟩
      | ok n =>
        simp only [enter, hcache, List.map_cons, reachAll_cons_of_ok hr]
        rcases ih g₁ (c.push deterministic n label) with ⟨g', e, c', hrest, heq⟩ | ⟨g', ns, hrest, heq⟩
        · exact Or.inl ⟨g', e, c', by rw [hrest]; rfl, heq⟩
        · refine Or.inr ⟨g', n :: ns, by rw [hrest]; rfl, heq.trans ?_⟩
          cases deterministic <;> simp [Expansion.push]

/-- Computing an expansion fails at once, or the successors are entered. -/
theorem expandAnew_cases (g : ProductGraph W A) (n : Nat) :
    (∀ s node a steps, ¬ Opens g n s node a steps) ∧
        g.expandAnew n = ({ g with last := none, cache := {} }, .error .noSuchNode) ∨
      ∃ s node a steps, Opens g n s node a steps ∧
        ((∃ g' e c, reachAll { g with last := none, automaton := a } (targets node steps) = (g', .error e) ∧
            g.expandAnew n = ({ g' with cache := c }, .error e)) ∨
          ∃ g' ns, reachAll { g with last := none, automaton := a } (targets node steps) = (g', .ok ns) ∧
            g.expandAnew n =
              ({ g' with
                  last := some n
                  cache := expansion (Automaton.isDeterministic a) node steps ns },
                .ok (expansion (Automaton.isDeterministic a) node steps ns))) := by
  cases hs : ProductGraph.state? { g with last := none, cache := {} } n with
  | none =>
    refine Or.inl ⟨fun s node a steps h => ?_, by simp only [expandAnew, hs]⟩
    cases hs.symm.trans h.state_eq
  | some s =>
    cases hnode : g.model.nodes[s.model]? with
    | none =>
      refine Or.inl ⟨fun s' node a steps h => ?_, by simp only [expandAnew, hs, hnode]⟩
      cases hs.symm.trans h.state_eq
      cases hnode.symm.trans h.node_eq
    | some node =>
      cases hsteps : ProductGraph.steps? { g with last := none, cache := {} } s.model node s.automaton with
      | none =>
        refine Or.inl ⟨fun s' node' a steps h => ?_, by simp only [expandAnew, hs, hnode, hsteps]⟩
        cases hs.symm.trans h.state_eq
        cases hnode.symm.trans h.node_eq
        have hsome : g.steps? s.model node s.automaton = some (a, steps) := steps?_eq_some_iff.mpr h.stepsTo
        cases hsteps.symm.trans hsome
      | some r =>
        obtain ⟨a, steps⟩ := r
        have hopens : Opens g n s node a steps := ⟨hs, hnode, steps?_eq_some_iff.mp hsteps⟩
        refine Or.inr ⟨s, node, a, steps, hopens, ?_⟩
        have hcases := enter_cases (Automaton.isDeterministic a) { g with last := none, automaton := a }
          { nodeLabel := if Automaton.isDeterministic a then steps.head?.bind Prod.snd else none }
          (labelledTargets node steps)
        rw [map_fst_labelledTargets, flatMap_snd_labelledTargets] at hcases
        rcases hcases with ⟨g', e, c, hr, heq⟩ | ⟨g', ns, hr, heq⟩
        · exact Or.inl ⟨g', e, c, hr, by simp only [expandAnew, hs, hnode, hsteps, heq]⟩
        · exact Or.inr ⟨g', ns, hr, by simp only [expandAnew, hs, hnode, hsteps, heq]; rfl⟩

theorem expand_cases (g : ProductGraph W A) (n : Nat) :
    g.last = some n ∧ g.expand n = (g, .ok g.cache) ∨ g.expand n = g.expandAnew n := by
  by_cases hlast : g.last = some n
  · exact Or.inl ⟨hlast, if_pos hlast⟩
  · exact Or.inr (if_neg hlast)

theorem mem_expand (h : t ∈ (g.expand n).1.states) :
    t ∈ g.states ∨ ∃ s node a steps, Opens g n s node a steps ∧ t ∈ targets node steps := by
  rcases g.expand_cases n with ⟨-, heq⟩ | heq
  · rw [heq] at h
    exact Or.inl h
  · rw [heq] at h
    rcases g.expandAnew_cases n with ⟨-, heq⟩ | ⟨s, node, a, steps, hopens, hr⟩
    · rw [heq] at h
      exact Or.inl h
    have hadded := (grows_reachAll { g with last := none, automaton := a } (targets node steps)).added t
    rcases hr with ⟨g', e', c, hr, heq⟩ | ⟨g', ns, hr, heq⟩
    · rw [heq] at h
      rw [hr] at hadded
      exact (hadded h).imp id fun ht => ⟨s, node, a, steps, hopens, ht⟩
    · rw [heq] at h
      rw [hr] at hadded
      exact (hadded h).imp id fun ht => ⟨s, node, a, steps, hopens, ht⟩

/-- A node that opens is not expanded only if one of its targets is refused. -/
theorem refuses_of_expand {node : ModelNode W} {a : A} {steps : List (Nat × Option Nat)} {e : ProductError}
    (ho : Opens g n s node a steps) (h : (g.expand n).2 = .error e) :
    ∃ t ∈ targets node steps, Refuses (g.expand n).1 t e := by
  rcases g.expand_cases n with ⟨-, heq⟩ | heq
  · rw [heq] at h
    cases h
  · rw [heq] at h ⊢
    rcases g.expandAnew_cases n with ⟨hnone, -⟩ | ⟨s', node', a', steps', ho', hr⟩
    · exact absurd ho (hnone s node a steps)
    · obtain ⟨rfl, rfl, rfl, rfl⟩ := ho.unique ho'
      rcases hr with ⟨g', e', c, hr, heq⟩ | ⟨g', ns, -, heq⟩
      · rw [heq] at h ⊢
        cases h
        obtain ⟨t, ht, hrefuses⟩ := refuses_of_reachAll (congrArg Prod.snd hr)
        rw [hr] at hrefuses
        exact ⟨t, ht, hrefuses.withCache c⟩
      · rw [heq] at h
        cases h

theorem eq_noSuchNode_of_expand {e : ProductError} (h : (g.expand n).2 = .error e)
    (hnone : ∀ s node a steps, ¬ Opens g n s node a steps) : e = .noSuchNode := by
  rcases g.expand_cases n with ⟨-, heq⟩ | heq
  · rw [heq] at h
    cases h
  · rw [heq] at h
    rcases g.expandAnew_cases n with ⟨-, heq⟩ | ⟨s, node, a, steps, ho, -⟩
    · rw [heq] at h
      cases h
      rfl
    · exact absurd ho (hnone s node a steps)

theorem Lists.reachAll_eq (h : Tracked g) {node : ModelNode W} {steps : List (Nat × Option Nat)}
    {e : Expansion} (hl : Lists g n s node steps e) (g' : ProductGraph W A) (hnodes : g'.nodes = g.nodes) :
    g'.reachAll (targets node steps) = (g', .ok e.successors) := by
  apply reachAll_of_map_state?
  · rw [hnodes]
    exact h.distinct
  · have hstate : g'.state? = g.state? := by
      funext k
      simp only [state?, hnodes]
    rw [hstate, hl.successors_eq]

/-- An expansion that has been given out is given out again. -/
theorem Lists.expand_eq (h : Tracked g) {node : ModelNode W} {steps : List (Nat × Option Nat)}
    {e : Expansion} (hl : Lists g n s node steps e) : (g.expand n).2 = .ok e := by
  rcases g.expand_cases n with ⟨hlast, heq⟩ | heq
  · -- What is remembered lists the same states, and a state has one number.
    obtain ⟨s', node', steps', hl'⟩ := h.last n hlast
    obtain ⟨rfl, rfl, -, rfl⟩ := hl.opens.unique hl'.opens
    have hsame : g.cache.successors = e.successors := by
      have hagain := (hl'.reachAll_eq h g rfl).symm.trans (hl.reachAll_eq h g rfl)
      exact Except.ok.inj (congrArg Prod.snd hagain)
    rw [heq, hl'.eq_expansion, hl.eq_expansion, hsame]
  · rw [heq]
    rcases g.expandAnew_cases n with ⟨hnone, -⟩ | ⟨s', node', a, steps', hopens, hr⟩
    · exact absurd hl.opens (hnone s node g.automaton steps)
    · -- All targets have numbers already, so there is room for them even if the limit is reached.
      obtain ⟨rfl, rfl, rfl, rfl⟩ := hl.opens.unique hopens
      have hreach := hl.reachAll_eq h { g with last := none } rfl
      rcases hr with ⟨g', e', c, hr, -⟩ | ⟨g', ns, hr, heq⟩
      · cases hreach.symm.trans hr
      · have hsame : e.successors = ns := Except.ok.inj (congrArg Prod.snd (hreach.symm.trans hr))
        rw [heq, hl.eq_expansion, hsame]

theorem Opens.continues {node : ModelNode W} {a : A} {steps : List (Nat × Option Nat)}
    (ho : Opens g n s node a steps) : Continues g { g with last := none, automaton := a } :=
  ⟨rfl, rfl, rfl, ho.stepsTo.queried, .refl _, id⟩

section Lawful

variable [LawfulAutomaton A]

theorem Opens.lists {node : ModelNode W} {a : A} {steps : List (Nat × Option Nat)} {ns : List Nat}
    (ho : Opens g n s node a steps)
    (hr : reachAll { g with last := none, automaton := a } (targets node steps) = (g', .ok ns)) :
    Lists g' n s node steps (expansion (Automaton.isDeterministic a) node steps ns) := by
  have hgrows := grows_reachAll { g with last := none, automaton := a } (targets node steps)
  have hmap := map_state?_reachAll (congrArg Prod.snd hr)
  rw [hr] at hgrows hmap
  have hc := ho.continues.trans hgrows.continues
  have hsame : g'.automaton = a := congrArg ProductGraph.automaton hgrows.frame
  refine ⟨⟨hc.state? ho.state_eq, ?_, ?_⟩, hmap, ?_⟩
  · rw [← ho.node_eq, hc.model]
  · rw [hc.moves, hsame]
    exact ho.stepsTo.again .refl
  · rw [hsame]
    rfl

theorem Tracked.expandAnew (h : Tracked g) (n : Nat) :
    Tracked (g.expandAnew n).1 ∧ Continues g (g.expandAnew n).1 := by
  rcases g.expandAnew_cases n with ⟨-, heq⟩ | ⟨s, node, a, steps, ho, hr⟩
  · rw [heq]
    exact ⟨(h.query .refl).withCache rfl {}, g.continues_remember _ _ _⟩
  have hgrows := grows_reachAll { g with last := none, automaton := a } (targets node steps)
  have hgrown := (h.query ho.stepsTo.queried).grow hgrows
  have hc := ho.continues.trans hgrows.continues
  rcases hr with ⟨g', e, c, hr, heq⟩ | ⟨g', ns, hr, heq⟩
  · have hlast : g'.last = none := by
      rw [hr] at hgrows
      exact congrArg ProductGraph.last hgrows.frame
    rw [hr] at hgrown hc
    rw [heq]
    exact ⟨hgrown.withCache hlast c, hc.trans (g'.continues_remember _ _ _)⟩
  · rw [hr] at hgrown hc
    rw [heq]
    refine ⟨⟨hgrown.distinct, hgrown.initial, ?_⟩, hc.trans (g'.continues_remember _ _ _)⟩
    intro n' hlast
    cases hlast
    exact ⟨s, node, steps, (ho.lists hr).continues (g'.continues_remember _ _ _)⟩

theorem Tracked.expand (h : Tracked g) (n : Nat) : Tracked (g.expand n).1 ∧ Continues g (g.expand n).1 := by
  rcases g.expand_cases n with ⟨-, heq⟩ | heq
  · rw [heq]
    exact ⟨h, .refl g⟩
  · rw [heq]
    exact h.expandAnew n

/-- What is given out as the expansion of a node lists its successors. -/
theorem Tracked.exists_lists (h : Tracked g) {e : Expansion} (he : (g.expand n).2 = .ok e) :
    ∃ s node a steps, Opens g n s node a steps ∧ Lists (g.expand n).1 n s node steps e := by
  rcases g.expand_cases n with ⟨hlast, heq⟩ | heq
  · rw [heq] at he ⊢
    cases he
    obtain ⟨s, node, steps, hl⟩ := h.last n hlast
    exact ⟨s, node, g.automaton, steps, hl.opens, hl⟩
  · rw [heq] at he ⊢
    rcases g.expandAnew_cases n with
      ⟨-, heq⟩ | ⟨s, node, a, steps, ho, ⟨g', e', c, -, heq⟩ | ⟨g', ns, hr, heq⟩⟩
    · rw [heq] at he
      cases he
    · rw [heq] at he
      cases he
    · rw [heq] at he ⊢
      cases he
      exact ⟨s, node, a, steps, ho, (ho.lists hr).continues (g'.continues_remember _ _ _)⟩

end Lawful

end ProductGraph

end OmegaGames
