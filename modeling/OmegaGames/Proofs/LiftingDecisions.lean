import OmegaGames.Proofs.EvenDecisions

/-!
# Decisions by the best measure

Even goes to a least measure, and so wins its region. All of Odd's region has the greatest measure, so
there Odd's choice is made by the order of the successors alone: it goes to the first one in the region.
That keeps the play in the region, but Odd wins by it only if no cycle of such moves favours Even.
-/
namespace OmegaGames

variable {W : Type} {g : Game W}

/-! ## The first greatest measure -/

namespace Measure

theorem bestFrom_top (position next : Nat) (ms : List Measure) :
    bestFrom (fun a b => lt b a) top position next ms = position := by
  induction ms generalizing next with
  | nil => rfl
  | cons m ms ih => exact ih (next + 1)

/-- As long as the best measure is below the greatest one, Odd's search goes on to the first greatest. -/
theorem bestFrom_eq_findIdx {best : Measure} (hbest : best.isTop = false) (position next : Nat)
    {ms : List Measure} (h : ∃ m ∈ ms, m.isTop = true) :
    bestFrom (fun a b => lt b a) best position next ms = next + ms.findIdx isTop := by
  induction ms generalizing best position next with
  | nil => simp at h
  | cons m ms ih =>
    cases m with
    | top =>
      obtain ⟨cs, rfl⟩ : ∃ cs, best = counts cs := by
        cases best with
        | counts cs => exact ⟨cs, rfl⟩
        | top => cases hbest
      exact bestFrom_top next (next + 1) ms
    | counts cs =>
      have hrest : ∃ m ∈ ms, m.isTop = true := by simpa [isTop] using h
      rw [bestFrom, List.findIdx_cons]
      simp only [isTop, cond_false]
      -- whether the head becomes the best or not, the best stays below the greatest measure
      split
      · rw [ih rfl next (next + 1) hrest]
        omega
      · rw [ih hbest position (next + 1) hrest]
        omega

theorem firstBest_eq_findIdx {ms : List Measure} (h : ∃ m ∈ ms, m.isTop = true) :
    firstBest (fun a b => lt b a) ms = ms.findIdx isTop := by
  cases ms with
  | nil => rfl
  | cons m ms =>
    cases m with
    | top => exact bestFrom_top 0 1 ms
    | counts cs =>
      have hrest : ∃ m ∈ ms, m.isTop = true := by simpa [isTop] using h
      rw [firstBest, bestFrom_eq_findIdx rfl 0 1 hrest, List.findIdx_cons]
      simp only [isTop, cond_false]
      omega

end Measure

/-! ## Moves to the first successor in a region -/

/-- An edge of the graph in which a player goes to its first successor in a region. -/
def Game.TakesFirst (g : Game W) (x : Player) (region : NodeSet) (u v : Nat) : Prop :=
  if g.owner u = x then (g.succs u).find? region.contains = some v else v ∈ g.succs u

theorem Game.follows_iff_takesFirst {x : Player} {σ : Strategy} {region : NodeSet} {u v : Nat}
    (h : g.owner u = x → σ.get u = (g.succs u).findIdx? region.contains) :
    g.Follows x σ u v ↔ g.TakesFirst x region u v := by
  unfold Follows TakesFirst
  split
  · rename_i ho
    simp only [ho, true_implies, h ho, List.find?_eq_bind_findIdx?_getElem?, Option.bind_eq_some_iff]
    exact exists_congr fun i => and_comm
  · rename_i ho
    simp only [ho, false_implies, and_true, g.mem_succs_iff]

/-- A player that goes to its first successor in a region it can keep wins there exactly if all cycles
of such moves favour it. -/
theorem Game.winsBy_iff_of_first {x : Player} {σ : Strategy} {won : NodeSet}
    (hfirst : ∀ v ∈ won, g.owner v = x → σ.get v = (g.succs v).findIdx? won.contains)
    (hstay : ∀ v ∈ won, g.owner v = x → ∃ i t, σ.get v = some i ∧ i < g.degree v ∧
      g.succ? v i = some t ∧ t ∈ won)
    (hclosed : ∀ v ∈ won, g.owner v = x.opponent → ∀ t ∈ g.succs v, t ∈ won) :
    g.WinsBy x σ won ↔ ∀ walk, IsCycle (Inside (g.TakesFirst x won) won.toSet) walk →
      ∀ p, (walk.map g.priority).min? = some p → Player.ofPriority p = x := by
  have hstep : Inside (g.Follows x σ) won.toSet = Inside (g.TakesFirst x won) won.toSet := by
    funext u v
    refine propext (and_congr_right fun hu => and_congr_right fun _ => ?_)
    exact Game.follows_iff_takesFirst (hfirst u hu)
  constructor
  · intro hwins
    rw [← hstep]
    exact hwins.cycles
  · intro hcycles
    exact ⟨hstay, hclosed, hstep ▸ hcycles⟩

/-! ## Even -/

namespace Lifting

variable [Scalar W]

/-- If lifting has room for a valid game without chance and is asked for Even's decisions, it splits the
nodes and Even wins its region by the decisions. Without room it refuses the game. -/
theorem solve_winsBy_even (s : Lifting) (g : Game W) (q : Query) (hg : g.Valid)
    (hno : ∀ v < g.size, g.owner v ≠ .stochastic) (hq : q.request.even = true) :
    (HasRoom g → ∃ r σ, s.solve g q = .ok r ∧ r.strategy = some σ ∧ IsSolution g r.even r.odd ∧
      g.WinsBy .even σ r.even) ∧
    (¬ HasRoom g → s.solve g q = .error .capacity) := by
  obtain ⟨hok, herr⟩ := s.solve_cases hg hno q
  refine ⟨fun hroom => ?_, herr⟩
  obtain ⟨σ, hσ, hheld⟩ := (s.heldByEven_regions hg hq).held
  exact ⟨_, σ, hok hroom, hσ, s.isSolution_regions hg hno q.request,
    hheld.winsBy (by simp) hg.isClosed hno⟩

theorem solve_fork_winsBy_even :
    (Game.fork Rat).Valid ∧ (∀ v < (Game.fork Rat).size, (Game.fork Rat).owner v ≠ .stochastic) ∧
      Request.evenOnly.even = true ∧ HasRoom (Game.fork Rat) ∧
      ∃ r σ, (Lifting.mk .successorChanged .lifo).solve (Game.fork Rat) ⟨false, .evenOnly⟩ = .ok r ∧
        r.strategy = some σ ∧ IsSolution (Game.fork Rat) r.even r.odd ∧ (Game.fork Rat).WinsBy .even σ r.even := by
  have hg : (Game.fork Rat).Valid := rfl
  have hno : ∀ v < (Game.fork Rat).size, (Game.fork Rat).owner v ≠ .stochastic := by decide
  have hroom : HasRoom (Game.fork Rat) := by decide
  exact ⟨hg, hno, rfl, hroom,
    (solve_winsBy_even ⟨.successorChanged, .lifo⟩ (Game.fork Rat) ⟨false, .evenOnly⟩ hg hno rfl).1 hroom⟩

/-! ## Odd -/

omit [Scalar W] in
theorem bestPosition_eq_findIdx {t : Table} {v : Nat} (ho : g.owner v = .odd)
    (h : ∃ u ∈ g.succs v, (measureAt t u).isTop = true) :
    bestPosition g t v = (g.succs v).findIdx (Measure.isTop ∘ measureAt t) := by
  have hmap : ∃ m ∈ (g.succs v).map (measureAt t), m.isTop = true := by simpa using h
  simp only [bestPosition, ho]
  rw [Measure.firstBest_eq_findIdx hmap, List.findIdx_map]

theorem bestPosition_eq_first (s : Lifting) (request : Request) (hg : g.Valid) {v : Nat}
    (ho : g.owner v = .odd) (h : ∃ u ∈ g.succs v, u ∈ (s.regions g request).odd) :
    (g.succs v).findIdx? (s.regions g request).odd.contains = some (bestPosition g (s.measures g) v) := by
  have hsame : (g.succs v).map (s.regions g request).odd.contains =
      (g.succs v).map (Measure.isTop ∘ measureAt (s.measures g)) := by
    refine List.map_congr_left fun u hu => Bool.eq_iff_iff.mpr ?_
    exact (s.regions_cases g request (hg.succ_lt hu)).1
  have htop : ∃ u ∈ g.succs v, (measureAt (s.measures g) u).isTop = true := by
    obtain ⟨u, hu, huo⟩ := h
    exact ⟨u, hu, (s.regions_cases g request (hg.succ_lt hu)).1.mp huo⟩
  have hidx := congrArg (List.findIdx id) hsame
  simp only [List.findIdx_map, Function.id_comp] at hidx
  rw [List.findIdx?_eq_some_of_exists h, bestPosition_eq_findIdx ho htop, hidx]

/-- Odd's decisions keep the play in its region, by the first successors there. -/
theorem odd_decisions_stay (s : Lifting) (hg : g.Valid) (hno : ∀ v < g.size, g.owner v ≠ .stochastic)
    {request : Request} (hq : request.odd = true) :
    ∃ σ, (s.regions g request).strategy = some σ ∧
      (∀ v ∈ (s.regions g request).odd, g.owner v = .odd →
        σ.get v = (g.succs v).findIdx? (s.regions g request).odd.contains ∧
        ∃ i t, σ.get v = some i ∧ i < g.degree v ∧ g.succ? v i = some t ∧
          t ∈ (s.regions g request).odd) ∧
      ∀ v ∈ (s.regions g request).odd, g.owner v = .even →
        ∀ t ∈ g.succs v, t ∈ (s.regions g request).odd := by
  have hany : request.any = true := by simp [Request.any, hq]
  obtain ⟨σ, hσ, hget⟩ := s.exists_strategy_regions g hany
  obtain ⟨τ, hτ⟩ := (s.isSolution_regions hg hno request).held_odd
  refine ⟨σ, hσ, fun v hv ho => ?_, fun v hv he t ht => ?_⟩
  · have hlt : v < g.size := NodeSet.mem_full.mp (hτ.inside hv)
    obtain ⟨_, u, -, hu, huo⟩ := hτ.decided v hv ho
    have hfirst := s.bestPosition_eq_first request hg ho ⟨u, g.mem_succs_of_succ? hu, huo⟩
    have hv' : σ.get v = some (bestPosition g (s.measures g) v) :=
      (hget v hlt).trans (if_pos (by rw [ho]; exact hq))
    obtain ⟨hi, hin, -⟩ := List.findIdx?_eq_some_iff_getElem.mp hfirst
    have hsucc := List.getElem?_eq_getElem hi
    exact ⟨hv'.trans hfirst.symm, _, _, hv', g.lt_degree_of_succ? hsucc, hsucc, hin⟩
  · exact hτ.closed v hv (by rw [he]; decide) t ht (NodeSet.mem_full.mpr (hg.succ_lt ht))

/-- If lifting has room for a valid game without chance and is asked for Odd's decisions, it splits the
nodes, and in Odd's region the decisions lead to the first successors there. The play stays in the
region, and Odd wins by the decisions exactly if every cycle of such moves has an odd least
priority. Without room lifting refuses the game. -/
theorem solve_winsBy_odd_iff (s : Lifting) (g : Game W) (q : Query) (hg : g.Valid)
    (hno : ∀ v < g.size, g.owner v ≠ .stochastic) (hq : q.request.odd = true) :
    (HasRoom g → ∃ r σ, s.solve g q = .ok r ∧ r.strategy = some σ ∧ IsSolution g r.even r.odd ∧
      (∀ v ∈ r.odd, g.owner v = .odd → σ.get v = (g.succs v).findIdx? r.odd.contains ∧
        ∃ i t, σ.get v = some i ∧ i < g.degree v ∧ g.succ? v i = some t ∧ t ∈ r.odd) ∧
      (∀ v ∈ r.odd, g.owner v = .even → ∀ t ∈ g.succs v, t ∈ r.odd) ∧
      (g.WinsBy .odd σ r.odd ↔ ∀ walk, IsCycle (Inside (g.TakesFirst .odd r.odd) r.odd.toSet) walk →
        ∀ p, (walk.map g.priority).min? = some p → Player.ofPriority p = .odd)) ∧
    (¬ HasRoom g → s.solve g q = .error .capacity) := by
  obtain ⟨hok, herr⟩ := s.solve_cases hg hno q
  refine ⟨fun hroom => ?_, herr⟩
  obtain ⟨σ, hσ, hstay, hclosed⟩ := s.odd_decisions_stay hg hno hq
  refine ⟨_, σ, hok hroom, hσ, s.isSolution_regions hg hno q.request, hstay, hclosed, ?_⟩
  exact Game.winsBy_iff_of_first (fun v hv ho => (hstay v hv ho).1) (fun v hv ho => (hstay v hv ho).2)
    hclosed

/-- At the fork Odd holds node 1 alone, and its first successor there is the node itself. -/
theorem solve_fork_winsBy_odd :
    (Game.fork Rat).Valid ∧ (∀ v < (Game.fork Rat).size, (Game.fork Rat).owner v ≠ .stochastic) ∧
      Request.both.odd = true ∧ HasRoom (Game.fork Rat) ∧
      ∃ r σ, (Lifting.mk .all .fifo).solve (Game.fork Rat) ⟨true, .both⟩ = .ok r ∧ r.strategy = some σ ∧
        1 ∈ r.odd ∧ (Game.fork Rat).WinsBy .odd σ r.odd := by
  have hg : (Game.fork Rat).Valid := rfl
  have hno : ∀ v < (Game.fork Rat).size, (Game.fork Rat).owner v ≠ .stochastic := by decide
  have hroom : HasRoom (Game.fork Rat) := by decide
  obtain ⟨r, σ, hr, hσ, hsol, -, -, hiff⟩ :=
    (solve_winsBy_odd_iff ⟨.all, .fifo⟩ (Game.fork Rat) ⟨true, .both⟩ hg hno rfl).1 hroom
  obtain rfl : regions ⟨.all, .fifo⟩ (Game.fork Rat) .both = r :=
    Except.ok.inj (((Lifting.mk .all .fifo).solve_cases hg hno ⟨true, .both⟩).1 hroom ▸ hr)
  have honly : ∀ v < (Game.fork Rat).size, v ∈ (regions ⟨.all, .fifo⟩ (Game.fork Rat) .both).odd → v = 1 := by
    decide +kernel
  refine ⟨hg, hno, rfl, hroom, _, σ, hr, hσ, by decide +kernel, hiff.mpr fun walk hwalk p hp => ?_⟩
  obtain ⟨u, hu, rfl⟩ := List.mem_map.mp (List.min?_mem hp)
  obtain ⟨_, -, huo, -⟩ := hwalk.connected.1 u hu
  have hlt : u < (Game.fork Rat).size := hsol.range_odd ▸ NodeSet.lt_range huo
  rw [honly u hlt huo]
  rfl

end Lifting

/-- Odd wins both nodes by going on from node 0 to node 1, but can loiter at node 0. -/
def Game.loiter : Game Rat :=
  ⟨#[⟨.odd, 0, [⟨0, 1⟩, ⟨1, 1⟩]⟩, ⟨.odd, 1, [⟨1, 1⟩]⟩]⟩

/-- With every setting, lifting gives node 0 to Odd and lets it loiter there for ever, although other
decisions win. -/
theorem Lifting.solve_loiter_not_winsBy :
    Game.loiter.Valid ∧ (∀ v < Game.loiter.size, Game.loiter.owner v ≠ .stochastic) ∧
      ∀ s : Lifting, ∃ r σ, s.solve Game.loiter ⟨false, .both⟩ = .ok r ∧ r.strategy = some σ ∧
        0 ∈ r.odd ∧ σ.get 0 = some 0 ∧ ¬ Game.loiter.WinsBy .odd σ r.odd ∧
        ∃ τ, Game.loiter.WinsBy .odd τ r.odd := by
  have hg : Game.loiter.Valid := rfl
  have hno : ∀ v < Game.loiter.size, Game.loiter.owner v ≠ .stochastic := by decide
  have hroom : HasRoom Game.loiter := by decide
  refine ⟨hg, hno, fun s => ?_⟩
  have hzero : 0 ∈ (s.regions Game.loiter .both).odd := by
    obtain ⟨_ | _, _ | _⟩ := s <;> decide +kernel
  obtain ⟨σ, hσ, hstay, -⟩ := s.odd_decisions_stay hg hno (rfl : Request.both.odd = true)
  have hloop : σ.get 0 = some 0 := by
    rw [(hstay 0 hzero rfl).1]
    exact List.findIdx?_eq_some_iff_getElem.mpr ⟨by decide, hzero, by simp⟩
  obtain ⟨τ, hτ⟩ := (s.isSolution_regions hg hno .both).held_odd
  refine ⟨_, σ, (s.solve_cases hg hno _).1 hroom, hσ, hzero, hloop, fun hwins => ?_, τ,
    hτ.winsBy (by simp) hg.isClosed hno⟩
  have hcycle : IsCycle (Inside (Game.loiter.Follows .odd σ) (s.regions Game.loiter .both).odd.toSet) [0] :=
    List.isChain_pair.mpr ⟨hzero, hzero, 0, rfl, fun _ => hloop⟩
  exact absurd (hwins.cycles [0] hcycle 0 rfl) (by decide)

end OmegaGames
