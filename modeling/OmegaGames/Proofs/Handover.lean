import OmegaGames.Proofs.TwoPlayerSolutions

/-!
# Nodes handed over to Even

In a game without chance some of Odd's nodes are given to Even. Whatever Even held it goes on to hold: at
its new nodes it may move as it likes, since Odd could not leave the region there. No solver is monotone
step by step, but all of them find the one solution, so the region of Even only grows. Gadgets leave such
a game as it is up to weights, and in the dual game the nodes go the other way.
-/
namespace OmegaGames

open Relation

variable {W : Type}

/-- The same node of one of the two players, except that Odd may have given it to Even. -/
structure Node.HandsOver (n n' : Node W) : Prop where
  priority_eq : n'.priority = n.priority
  edges_eq : n'.edges = n.edges
  even : n.owner = .even → n'.owner = .even
  player : n.owner ≠ .stochastic
  player' : n'.owner ≠ .stochastic

/-- A game without chance and the game in which Odd has given some nodes to Even. -/
def Game.HandsOver (g g' : Game W) : Prop := List.Forall₂ Node.HandsOver g.nodes.toList g'.nodes.toList

namespace Game.HandsOver

variable {g g' : Game W} (h : g.HandsOver g') {v : Nat}
include h

theorem size_eq : g'.size = g.size := by simpa [size] using h.length_eq.symm

theorem exists_node {n : Node W} (hn : g.nodes[v]? = some n) :
    ∃ n', g'.nodes[v]? = some n' ∧ n.HandsOver n' := by
  obtain ⟨hlt, rfl⟩ := Array.getElem?_eq_some_iff.mp hn
  have hlt' : v < g'.nodes.size := by
    have hsize := h.size_eq
    rw [size, size] at hsize
    omega
  refine ⟨g'.nodes[v], Array.getElem?_eq_getElem hlt', ?_⟩
  simpa using h.get (i := v) (by simpa using hlt) (by simpa using hlt')

theorem getElem?_eq_none (hn : g.nodes[v]? = none) : g'.nodes[v]? = none := by
  have hsize := h.size_eq
  rw [size, size] at hsize
  rw [Array.getElem?_eq_none_iff] at hn ⊢
  omega

theorem priority_eq (v : Nat) : g'.priority v = g.priority v := by
  cases hn : g.nodes[v]? with
  | none => simp [priority, hn, h.getElem?_eq_none hn]
  | some n =>
    obtain ⟨n', hn', hnode⟩ := h.exists_node hn
    simp [priority, hn, hn', hnode.priority_eq]

theorem edges_eq (v : Nat) : g'.edges v = g.edges v := by
  cases hn : g.nodes[v]? with
  | none => simp [edges, hn, h.getElem?_eq_none hn]
  | some n =>
    obtain ⟨n', hn', hnode⟩ := h.exists_node hn
    simp [edges, hn, hn', hnode.edges_eq]

theorem succs_eq (v : Nat) : g'.succs v = g.succs v := by rw [succs, succs, h.edges_eq]

theorem succ?_eq (v i : Nat) : g'.succ? v i = g.succ? v i := by rw [succ?, succ?, h.succs_eq]

theorem owner_of_lt (hv : v < g.size) :
    g.owner v ≠ .stochastic ∧ g'.owner v ≠ .stochastic ∧ (g.owner v = .even → g'.owner v = .even) := by
  obtain ⟨n, hn⟩ := Game.exists_node hv
  obtain ⟨n', hn', hnode⟩ := h.exists_node hn
  simp only [owner, hn, hn']
  exact ⟨hnode.player, hnode.player', hnode.even⟩

theorem valid_iff [Scalar W] : g'.Valid ↔ g.Valid := by
  rw [Game.valid_iff, Game.valid_iff, h.size_eq]
  refine forall₂_congr fun v hv => ?_
  obtain ⟨hplayer, hplayer', -⟩ := h.owner_of_lt hv
  rw [h.priority_eq, h.edges_eq]
  simp [hplayer, hplayer']

theorem hasRoom_iff (s : TwoPlayerSolver) : s.HasRoom g' ↔ s.HasRoom g := by
  cases s with
  | recursive _ => exact Iff.rfl
  | lifting _ =>
    simp only [TwoPlayerSolver.HasRoom, TwoPlayerSolver.RoomFor, Lifting.RoomFor, h.size_eq, h.priority_eq]

end Game.HandsOver

/-! ## Regions that Even holds -/

/-- Even's decisions, with the first successor at all other nodes. -/
def Strategy.fillIn (g : Game W) (σ : Strategy) : Strategy :=
  ⟨Array.ofFn fun v : Fin g.size => if g.owner v = .even then σ.get v else some 0⟩

theorem Strategy.get_fillIn (g : Game W) (σ : Strategy) {v : Nat} (hv : v < g.size) :
    (σ.fillIn g).get v = if g.owner v = .even then σ.get v else some 0 := by
  rw [fillIn, get_ofFn g.size fun v => if g.owner v = .even then σ.get v else some 0, if_pos hv]

namespace Game.HandsOver

variable {g g' : Game W} (h : g.HandsOver g') {σ : Strategy} {arena C : Set Nat}
include h

/-- Where Even had decided it still follows its decision. -/
theorem follows {u v : Nat} (hu : u < g.size) (huv : g'.Follows .even (σ.fillIn g) u v) :
    g.Follows .even σ u v := by
  obtain ⟨i, hi, hdecided⟩ := huv
  rw [h.succ?_eq] at hi
  refine ⟨i, hi, fun ho => ?_⟩
  have hget := hdecided ((h.owner_of_lt hu).2.2 ho)
  rwa [Strategy.get_fillIn g σ hu, if_pos ho] at hget

theorem endComponent (harena : ∀ u ∈ arena, u < g.size)
    (hC : EndComponent g' .even (σ.fillIn g) arena C) : EndComponent g .even σ arena C where
  nonempty := hC.nonempty
  inside := hC.inside
  chance u hu hs := absurd hs (h.owner_of_lt (harena u (hC.inside hu))).1
  alive u hu := by
    obtain ⟨v, hv, huv⟩ := hC.alive u hu
    exact ⟨v, hv, h.follows (harena u (hC.inside hu)) huv⟩
  connected u hu v hv :=
    reflTransGen_inside_mono (fun a ha _ hab => h.follows (harena a (hC.inside ha)) hab)
      (hC.connected u hu v hv)

theorem dominion [Scalar W] (hg : g.Valid) {won : Set Nat}
    (hσ : Dominion g .even σ (NodeSet.full g.size).toSet won) :
    Dominion g' .even (σ.fillIn g) (NodeSet.full g'.size).toSet won := by
  have hlt : ∀ u ∈ (NodeSet.full g.size).toSet, u < g.size := fun u hu => NodeSet.mem_full.mp hu
  rw [h.size_eq]
  refine ⟨hσ.inside, ?_, ?_, ?_⟩
  · intro u hu _
    have hu' := hlt u (hσ.inside hu)
    rw [Strategy.get_fillIn g σ hu']
    by_cases ho : g.owner u = .even
    · obtain ⟨i, t, hi, ht, htw⟩ := hσ.decided u hu ho
      exact ⟨i, t, by rw [if_pos ho, hi], by rw [h.succ?_eq, ht], htw⟩
    · -- Odd could not leave the region here, so any successor will do.
      obtain ⟨t, ht⟩ : ∃ t, g.succ? u 0 = some t :=
        g.exists_succ?_of_lt_degree (by
          rw [← g.length_succs]
          exact List.length_pos_iff.mpr (hg.succs_ne_nil hu'))
      have hmem := g.mem_succs_of_succ? ht
      refine ⟨0, t, by rw [if_neg ho], by rw [h.succ?_eq, ht], ?_⟩
      exact hσ.closed u hu ho t hmem (NodeSet.mem_full.mpr (hg.succ_lt hmem))
  · intro u hu ho t ht hta
    rw [h.succs_eq] at ht
    apply hσ.closed u hu _ t ht hta
    exact fun hown => ho ((h.owner_of_lt (hlt u (hσ.inside hu))).2.2 hown)
  · intro C hC hsub p hp
    have hpriority : g'.priority = g.priority := funext h.priority_eq
    rw [hpriority] at hp
    exact hσ.parity C (h.endComponent hlt hC) hsub p hp

end Game.HandsOver

/-! ## Answers of solvers -/

/-- From the first split to the second one Even loses nothing and Odd gains nothing. -/
structure Regions.EvenGains (r r' : Regions) : Prop where
  even : ∀ v ∈ r.even, v ∈ r'.even
  odd : ∀ v ∈ r'.odd, v ∈ r.odd

theorem Regions.EvenGains.swapped {r r' : Regions} (h : r.EvenGains r') : r'.swapped.EvenGains r.swapped :=
  ⟨h.odd, h.even⟩

/-- Two games are both answered or both refused, and Even gains from the first answer to the second. -/
structure Gains (x x' : Except (SolveError W) Regions) : Prop where
  answered_iff : (∃ r, x = .ok r) ↔ ∃ r', x' = .ok r'
  gains : ∀ r r', x = .ok r → x' = .ok r' → r.EvenGains r'

theorem Gains.swapped {x x' : Except (SolveError W) Regions} (h : Gains x x') :
    Gains (do let r ← x'; return r.swapped) (do let r ← x; return r.swapped) := by
  cases x with
  | error e =>
    cases x' with
    | error e' => exact ⟨by simp [bind, Except.bind], fun _ _ hr => by cases hr⟩
    | ok r' =>
      obtain ⟨r, hr⟩ := h.answered_iff.mpr ⟨r', rfl⟩
      cases hr
  | ok r =>
    obtain ⟨r', rfl⟩ := h.answered_iff.mp ⟨r, rfl⟩
    refine ⟨⟨fun _ => ⟨_, rfl⟩, fun _ => ⟨_, rfl⟩⟩, ?_⟩
    intro s s' hs hs'
    cases hs
    cases hs'
    exact (h.gains r r' rfl rfl).swapped

namespace IsSolution

variable [Scalar W] {g g' : Game W} {even odd even' odd' : NodeSet}

theorem mem_even_of_handsOver (h : g.HandsOver g') (hg : g.Valid) (hs : IsSolution g even odd)
    (hs' : IsSolution g' even' odd') {v : Nat} (hv : v ∈ even) : v ∈ even' := by
  obtain ⟨σ, hσ⟩ := hs.held_even
  obtain ⟨τ, hτ⟩ := hs'.held_odd
  have hlt : v < g'.size := by
    rw [h.size_eq, ← hs.range_even]
    exact NodeSet.lt_range hv
  exact (hs'.covered v hlt).resolve_right
    ((h.dominion hg hσ).disjoint (by simp) (h.valid_iff.mpr hg) hτ hv)

end IsSolution

namespace TwoPlayerSolver

variable [Scalar W] {g g' : Game W}

theorem exists_solve_iff (s : TwoPlayerSolver) (q : Query) (hno : ∀ v < g.size, g.owner v ≠ .stochastic) :
    (∃ r, s.solve g q = .ok r) ↔ g.Valid ∧ s.HasRoom g := by
  constructor
  · rintro ⟨r, hr⟩
    have hg := valid_of_solve hr
    refine ⟨hg, ?_⟩
    by_contra hroom
    rw [(s.solve_cases hg hno q).2 hroom] at hr
    cases hr
  · rintro ⟨hg, hroom⟩
    obtain ⟨r, hr, -⟩ := (s.solve_cases hg hno q).1 hroom
    exact ⟨r, hr⟩

theorem isSolution_of_solve {s : TwoPlayerSolver} {q : Query} {r : Regions}
    (hno : ∀ v < g.size, g.owner v ≠ .stochastic) (h : s.solve g q = .ok r) :
    IsSolution g r.even r.odd := by
  obtain ⟨hg, hroom⟩ := (s.exists_solve_iff q hno).mp ⟨r, h⟩
  obtain ⟨r', hr', hsol⟩ := (s.solve_cases hg hno q).1 hroom
  obtain rfl := Except.ok.inj (h.symm.trans hr')
  exact hsol

theorem gains_solve (s : TwoPlayerSolver) (q : Query) (h : g.HandsOver g') :
    Gains (s.solve g q) (s.solve g' q) := by
  have hno : ∀ v < g.size, g.owner v ≠ .stochastic := fun v hv => (h.owner_of_lt hv).1
  have hno' : ∀ v < g'.size, g'.owner v ≠ .stochastic := by
    intro v hv
    rw [h.size_eq] at hv
    exact (h.owner_of_lt hv).2.1
  constructor
  · rw [exists_solve_iff s q hno, exists_solve_iff s q hno', h.valid_iff, h.hasRoom_iff]
  · intro r r' hr hr'
    have hsol := isSolution_of_solve hno hr
    have hsol' := isSolution_of_solve hno' hr'
    have heven : ∀ v ∈ r.even, v ∈ r'.even := fun v hv =>
      hsol.mem_even_of_handsOver h (valid_of_solve hr) hsol' hv
    refine ⟨heven, fun v hv => ?_⟩
    have hlt : v < g'.size := hsol'.range_odd ▸ NodeSet.lt_range hv
    refine (hsol.covered v (h.size_eq ▸ hlt)).resolve_left fun hve => ?_
    exact (hsol'.mem_odd_iff (valid_of_solve hr') hlt).mp hv (heven v hve)

end TwoPlayerSolver

/-! ## Games made from games -/

namespace Game.HandsOver

variable {g g' : Game W} (h : g.HandsOver g')
include h

theorem maxPriority?_eq : g'.maxPriority? = g.maxPriority? := by
  have hpriorities : g'.nodes.toList.map Node.priority = g.nodes.toList.map Node.priority := by
    rw [map_priority_nodes, map_priority_nodes, h.size_eq, funext h.priority_eq]
  rw [maxPriority?, maxPriority?, hpriorities]

theorem normalize : g.normalize.HandsOver g'.normalize := by
  unfold HandsOver Game.normalize
  rw [h.maxPriority?_eq, Array.toList_map, Array.toList_map, List.forall₂_map_left_iff,
    List.forall₂_map_right_iff]
  refine List.Forall₂.imp (fun n n' hn => ?_) h
  rw [hn.priority_eq]
  split
  · exact { hn with priority_eq := rfl }
  · exact hn

/-- In the dual game the nodes go the other way. -/
theorem dual : g'.dual.HandsOver g.dual := by
  unfold HandsOver Game.dual
  rw [Array.toList_map, Array.toList_map, List.forall₂_map_left_iff, List.forall₂_map_right_iff]
  refine List.Forall₂.imp (fun n' n hn => ?_) h.flip
  refine ⟨?_, hn.edges_eq.symm, ?_, ?_, ?_⟩
  · simp only [hn.priority_eq]
  · intro heven
    have hplayer := hn.player
    have hkeep := hn.even
    cases ho : n.owner <;> cases ho' : n'.owner <;> simp_all [Player.opponent]
  · exact Player.opponent_ne_stochastic hn.player'
  · exact Player.opponent_ne_stochastic hn.player

end Game.HandsOver

namespace Gadget

variable {g g' : Game W}

theorem nodeCount_of_player {n : Node W} (hn : n.owner ≠ .stochastic) : nodeCount n = 1 := by
  rw [nodeCount]
  split
  · contradiction
  · rfl

theorem layout_eq_of_handsOver (h : g.HandsOver g') : layout g' = layout g := by
  have hfold : ∀ {ns ns' : List (Node W)}, List.Forall₂ Node.HandsOver ns ns' → ∀ acc : Array Nat × Nat,
      ns'.foldl (fun acc n => (acc.1.push acc.2, acc.2 + nodeCount n)) acc =
        ns.foldl (fun acc n => (acc.1.push acc.2, acc.2 + nodeCount n)) acc := by
    intro ns ns' hns
    induction hns with
    | nil => exact fun acc => rfl
    | cons hn _ ih =>
      intro acc
      rw [List.foldl_cons, List.foldl_cons, ih, nodeCount_of_player hn.player,
        nodeCount_of_player hn.player']
  exact hfold h (#[], 0)

theorem mapping_eq_of_handsOver (h : g.HandsOver g') : mapping g' = mapping g :=
  congrArg Prod.fst (layout_eq_of_handsOver h)

theorem totalCount_eq_of_handsOver (h : g.HandsOver g') : totalCount g' = totalCount g :=
  congrArg Prod.snd (layout_eq_of_handsOver h)

variable [Scalar W]

theorem expand_of_player {n : Node W} (hn : n.owner ≠ .stochastic) (m : Array Nat) (base : Nat) :
    expand m base n = [⟨n.owner, n.priority, n.edges.map fun e => link (m.getD e.target 0)⟩] := by
  rw [expand]
  split
  · contradiction
  · rfl

/-- A node that has been handed over is still one node, with the same number. -/
theorem handsOver_append (m : Array Nat) {nodes nodes' : Array (Node W)} {n n' : Node W}
    (hnodes : List.Forall₂ Node.HandsOver nodes.toList nodes'.toList) (hn : n.HandsOver n') :
    List.Forall₂ Node.HandsOver (append m nodes n).toList (append m nodes' n').toList := by
  rw [append, append, Array.toList_append, Array.toList_append]
  refine List.rel_append hnodes ?_
  rw [expand_of_player hn.player, expand_of_player hn.player', hn.edges_eq]
  exact .cons ⟨hn.priority_eq, rfl, hn.even, hn.player, hn.player'⟩ .nil

theorem handsOver_foldl_append (m : Array Nat) {ns ns' : List (Node W)} (hns : List.Forall₂ Node.HandsOver ns ns')
    {nodes nodes' : Array (Node W)} (hnodes : List.Forall₂ Node.HandsOver nodes.toList nodes'.toList) :
    List.Forall₂ Node.HandsOver (ns.foldl (append m) nodes).toList (ns'.foldl (append m) nodes').toList := by
  induction hns generalizing nodes nodes' with
  | nil => exact hnodes
  | cons hn _ ih => exact ih (handsOver_append m hnodes hn)

theorem handsOver_transform (h : g.HandsOver g') : (transform g).HandsOver (transform g') := by
  unfold Game.HandsOver transform built
  rw [mapping_eq_of_handsOver h, h.size_eq]
  exact handsOver_foldl_append (mapping g) (List.forall₂_take _ h) .nil

omit [Scalar W] in
theorem evenGains_restore (hsize : g'.size = g.size) (hmapping : mapping g' = mapping g) (request : Request)
    {r r' : Regions} (h : r.EvenGains r') : (restore g request r).EvenGains (restore g' request r') := by
  constructor
  · intro v hv
    have himage := h.even ((mapping g).getD v 0)
    simp only [restore, NodeSet.mem_iff, NodeSet.contains_ofPred, Bool.and_eq_true, decide_eq_true_eq,
      hsize, hmapping] at hv himage ⊢
    exact ⟨hv.1, himage hv.2⟩
  · intro v hv
    have himage := h.even ((mapping g).getD v 0)
    have himage' := h.odd ((mapping g).getD v 0)
    simp only [restore, NodeSet.mem_iff, NodeSet.contains_ofPred, Bool.and_eq_true, Bool.not_eq_true',
      decide_eq_true_eq, hsize, hmapping] at hv himage himage' ⊢
    obtain ⟨hlt, hnot, hodd⟩ := hv
    refine ⟨hlt, ?_, himage' hodd⟩
    rw [← Bool.not_eq_true] at hnot ⊢
    exact fun heven => hnot (himage heven)

theorem gains_solveStrict (inner : TwoPlayerSolver) (request : Request) (h : g.HandsOver g') :
    Gains (solveStrict inner g request) (solveStrict inner g' request) := by
  have hn := h.normalize
  have hinner := inner.gains_solve ⟨true, request⟩ (handsOver_transform hn)
  constructor
  · simp only [solveStrict_eq_ok_iff, hn.valid_iff, totalCount_eq_of_handsOver hn]
    constructor
    · rintro ⟨_, hg, hcount, r, hr, -⟩
      obtain ⟨r', hr'⟩ := hinner.answered_iff.mp ⟨r, hr⟩
      exact ⟨_, hg, hcount, r', hr', rfl⟩
    · rintro ⟨_, hg, hcount, r', hr', -⟩
      obtain ⟨r, hr⟩ := hinner.answered_iff.mpr ⟨r', hr'⟩
      exact ⟨_, hg, hcount, r, hr, rfl⟩
  · intro s s' hs hs'
    obtain ⟨-, -, r, hr, rfl⟩ := (solveStrict_eq_ok_iff ..).mp hs
    obtain ⟨-, -, r', hr', rfl⟩ := (solveStrict_eq_ok_iff ..).mp hs'
    exact evenGains_restore hn.size_eq (mapping_eq_of_handsOver hn) request (hinner.gains r r' hr hr')

theorem gains_gadget (inner : TwoPlayerSolver) (q : Query) (h : g.HandsOver g') :
    Gains (solve inner g q) (solve inner g' q) := by
  rw [solve, solve]
  split
  · exact gains_solveStrict inner q.request h
  · exact (gains_solveStrict inner q.request.swapped h.dual).swapped

end Gadget

/-- Whoever is strict, every solver gives Even all that it had before nodes were handed over to it. -/
theorem QualitativeSolver.gains_solve [Scalar W] (s : QualitativeSolver) (q : Query) {g g' : Game W}
    (h : g.HandsOver g') : Gains (s.solve g q) (s.solve g' q) := by
  cases s with
  | recursive settings => exact (TwoPlayerSolver.recursive settings).gains_solve q h
  | lifting settings => exact (TwoPlayerSolver.lifting settings).gains_solve q h
  | gadget inner => exact Gadget.gains_gadget inner q h

end OmegaGames
