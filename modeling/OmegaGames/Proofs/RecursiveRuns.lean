import OmegaGames.Proofs.AlmostSure
import OmegaGames.Proofs.UnboundedSearch

/-!
# Runs of the recursive solver

`Runs` is the recursion without any bound: neither the depth of the calls nor the rounds of a call nor
the searches inside of a round are limited. A run carries the list of all calls it makes, with their
answers. On a valid game there is a run, the bounded solver gives its answer, and at every call all
nodes of the region can stay in it and are split between the players.
-/
namespace OmegaGames

variable {W : Type}

structure Split.Partitions (s : Split) (g : Game W) (region : NodeSet) : Prop where
  range_even : s.even.range = g.size
  range_odd : s.odd.range = g.size
  mem : ∀ v, v ∈ region ↔ v ∈ s.even ∨ v ∈ s.odd
  disjoint : ∀ v ∈ s.even, v ∉ s.odd

theorem Settled.partitions {g : Game W} {q : Query} {region : NodeSet} {σ : Strategy} {s : Split}
    (h : Settled g q region σ s) : s.Partitions g region where
  range_even := h.range .even (by simp)
  range_odd := h.range .odd (by simp)
  mem := h.mem .even (by simp)
  disjoint := h.disjoint .even (by simp)

namespace Recursive

/-- A call: the region it is about and its answer. -/
structure Call where
  region : NodeSet
  answer : Split

/-- What is to be done: to split a region, or to go on with the rounds of a call. -/
inductive Task where
  | split (region : NodeSet)
  | peel (player : Player) (target rest lost : NodeSet)

/-- The opponent attracts `away`, with probability one if it has to win so. -/
def TakesAway (a : Arena W) (q : Query) (target region : NodeSet) (opponent : Player)
    (away : NodeSet) : Prop :=
  if q.needsAlmostSure opponent then a.Narrows target opponent region away
  else ∃ f, a.Attracts target region (.empty 0) opponent (.blank 0) f ∧ f.reached = away

def Records (a : Arena W) (request : Request) (target attractor : NodeSet) (player : Player)
    (σ σ' : Strategy) : Prop :=
  if request.wants player then ∃ f, a.Attracts target attractor (.empty 0) player σ f ∧ f.strategy = σ'
  else σ' = σ

/-- Whether a region is given to one player at once. -/
def AtOnce (s : Recursive) (g : Game W) (region : NodeSet) (least : Nat) : Prop :=
  s.sameParityShortcut = true ∧ ∀ v ∈ region, g.priority v % 2 = least % 2

/-- A task that is begun with the decisions `σ` ends with a split, after the listed calls. -/
inductive Runs (s : Recursive) (a : Arena W) (q : Query) : Task → Strategy → Split → List Call → Prop
  | nothing {region : NodeSet} {σ : Strategy} (hleast : leastPriority? a.game region = none) :
      Runs s a q (.split region) σ ⟨.empty a.game.size, .empty a.game.size, σ⟩
        [⟨region, .empty a.game.size, .empty a.game.size, σ⟩]
  | sameParity {region : NodeSet} {σ : Strategy} {least : Nat} {answer : Split}
      (hleast : leastPriority? a.game region = some least) (honce : s.AtOnce a.game region least)
      (hanswer : answer = .ofSides (.ofPriority least) region (.empty a.game.size)
        (stayInside a.game q.request region region.toList σ)) :
      Runs s a q (.split region) σ answer [⟨region, answer⟩]
  | rounds {region : NodeSet} {σ : Strategy} {least : Nat} {answer : Split} {calls : List Call}
      (hleast : leastPriority? a.game region = some least) (honce : ¬ s.AtOnce a.game region least)
      (hrun : Runs s a q (.peel (.ofPriority least) (region.filter fun v => a.game.priority v = least)
        region (.empty a.game.size)) σ answer calls) :
      Runs s a q (.split region) σ answer (⟨region, answer⟩ :: calls)
  | last {player : Player} {target rest lost : NodeSet} {σ σ' : Strategy} {near : Front}
      {inner : Split} {calls : List Call}
      (hnear : a.Attracts target rest (.empty 0) player (.blank 0) near)
      (hinner : Runs s a q (.split (rest.diff near.reached)) σ inner calls)
      (hnone : (inner.won player.opponent).isEmpty = true)
      (hrecord : Records a q.request (target.inter rest) near.reached player
        (stayInside a.game q.request rest (target.inter rest).toList inner.strategy) σ') :
      Runs s a q (.peel player target rest lost) σ (.ofSides player rest lost σ') calls
  | next {player : Player} {target rest lost away : NodeSet} {σ σ' : Strategy} {near : Front}
      {inner answer : Split} {calls calls' : List Call}
      (hnear : a.Attracts target rest (.empty 0) player (.blank 0) near)
      (hinner : Runs s a q (.split (rest.diff near.reached)) σ inner calls)
      (hsome : ¬ (inner.won player.opponent).isEmpty = true)
      (haway : TakesAway a q (inner.won player.opponent) rest player.opponent away)
      (hrecord : Records a q.request (inner.won player.opponent) away player.opponent inner.strategy σ')
      (hrest : Runs s a q (.peel player target (rest.diff away) (lost.union away)) σ' answer calls') :
      Runs s a q (.peel player target rest lost) σ answer (calls ++ calls')

section Unique

variable {a : Arena W} {q : Query}

theorem TakesAway.unique {target region away away' : NodeSet} {x : Player}
    (h : TakesAway a q target region x away) (h' : TakesAway a q target region x away') :
    away = away' := by
  unfold TakesAway at h h'
  split at h
  · rename_i hq
    rw [if_pos hq] at h'
    exact h.unique h'
  · rename_i hq
    rw [if_neg hq] at h'
    obtain ⟨f, hf, rfl⟩ := h
    obtain ⟨f', hf', rfl⟩ := h'
    rw [hf.unique hf']

theorem Records.unique {request : Request} {target attractor : NodeSet} {x : Player}
    {σ σ' σ'' : Strategy} (h : Records a request target attractor x σ σ')
    (h' : Records a request target attractor x σ σ'') : σ' = σ'' := by
  unfold Records at h h'
  split at h
  · rename_i hw
    rw [if_pos hw] at h'
    obtain ⟨f, hf, rfl⟩ := h
    obtain ⟨f', hf', rfl⟩ := h'
    rw [hf.unique hf']
  · rename_i hw
    rw [if_neg hw] at h'
    rw [h, h']

theorem Runs.unique {s : Recursive} {task : Task} {σ : Strategy} {answer answer' : Split}
    {calls calls' : List Call} (h : Runs s a q task σ answer calls)
    (h' : Runs s a q task σ answer' calls') : answer = answer' ∧ calls = calls' := by
  induction h generalizing answer' calls' with
  | nothing hleast =>
    cases h' with
    | nothing => exact ⟨rfl, rfl⟩
    | sameParity hleast' => cases hleast.symm.trans hleast'
    | rounds hleast' => cases hleast.symm.trans hleast'
  | sameParity hleast honce hanswer =>
    cases h' with
    | nothing hleast' => cases hleast.symm.trans hleast'
    | sameParity hleast' _ hanswer' =>
      cases hleast.symm.trans hleast'
      rw [hanswer, hanswer']
      exact ⟨rfl, rfl⟩
    | rounds hleast' honce' =>
      cases hleast.symm.trans hleast'
      exact absurd honce honce'
  | rounds hleast honce _ ih =>
    cases h' with
    | nothing hleast' => cases hleast.symm.trans hleast'
    | sameParity hleast' honce' =>
      cases hleast.symm.trans hleast'
      exact absurd honce' honce
    | rounds hleast' _ hrun =>
      cases hleast.symm.trans hleast'
      obtain ⟨rfl, rfl⟩ := ih hrun
      exact ⟨rfl, rfl⟩
  | last hnear _ hnone hrecord ih =>
    cases h' with
    | last hnear' hinner _ hrecord' =>
      cases hnear.unique hnear'
      obtain ⟨rfl, rfl⟩ := ih hinner
      rw [hrecord.unique hrecord']
      exact ⟨rfl, rfl⟩
    | next hnear' hinner hsome =>
      cases hnear.unique hnear'
      obtain ⟨rfl, rfl⟩ := ih hinner
      exact absurd hnone hsome
  | next hnear _ hsome haway hrecord _ ih ihrest =>
    cases h' with
    | last hnear' hinner hnone =>
      cases hnear.unique hnear'
      obtain ⟨rfl, rfl⟩ := ih hinner
      exact absurd hnone hsome
    | next hnear' hinner _ haway' hrecord' hrest =>
      cases hnear.unique hnear'
      obtain ⟨rfl, rfl⟩ := ih hinner
      obtain rfl := haway.unique haway'
      obtain rfl := hrecord.unique hrecord'
      obtain ⟨rfl, rfl⟩ := ihrest hrest
      exact ⟨rfl, rfl⟩

end Unique

/-! ## The bounded solver has a run -/

variable {g : Game W} {q : Query} {s : Recursive}

theorem takesAway_opponentAttractor {target region : NodeSet} {x : Player} (hr : region.range = g.size) :
    TakesAway g.arena q target region x (opponentAttractor g.arena q target region x) := by
  unfold TakesAway opponentAttractor
  split
  · exact g.narrows_weakAttractor target hr
  · exact ⟨_, g.attracts_attract target _ _ hr, rfl⟩

theorem records_recordIfWanted {request : Request} {target attractor : NodeSet} {x : Player}
    (ha : attractor.range = g.size) (σ : Strategy) :
    Records g.arena request target attractor x σ (recordIfWanted g.arena request target attractor x σ) := by
  unfold Records recordIfWanted
  split
  · exact ⟨_, g.attracts_attract target _ σ ha, rfl⟩
  · rfl

/-- A call about a region in which all nodes can stay, with an answer that splits it. -/
structure Call.Sound (g : Game W) (c : Call) : Prop where
  total : g.Total c.region
  partitions : c.answer.Partitions g c.region

/-- A task that ends, with sound calls only. -/
def Ends (s : Recursive) (g : Game W) (q : Query) (task : Task) (σ : Strategy) (answer : Split) : Prop :=
  ∃ calls, Runs s g.arena q task σ answer calls ∧ ∀ c ∈ calls, c.Sound g

/-- The rounds of a call end if the calls about fewer nodes do. -/
private theorem ends_peel {player : Player} (hp : player ≠ .stochastic)
    {target region rest lost : NodeSet} {σ₀ σ : Strategy} {solve : NodeSet → Strategy → Split}
    (hsolve : ∀ (part : NodeSet) (σ : Strategy), part.range = g.size → g.Total part →
      σ.size = g.size → part.size < region.size →
      Settled g q part σ (solve part σ) ∧ Ends s g q (.split part) σ (solve part σ)) (rounds : Nat)
    (h : Peeled g q player target region σ₀ rest lost σ) (hrounds : rest.size < rounds) :
    Ends s g q (.peel player target rest lost) σ (peel g.arena q solve player target rounds rest lost σ) := by
  induction rounds generalizing rest lost σ with
  | zero => omega
  | succ rounds ih =>
    obtain ⟨hs, calls, hinner, hsound⟩ :=
      hsolve (rest.diff (g.arena.strongAttractor target rest player)) σ
        (by simpa using h.range_rest) h.total_apart h.size h.size_apart_lt
    have hnear : g.arena.Attracts target rest (.empty 0) player (.blank 0) _ :=
      g.attracts_attract target _ _ h.range_rest
    rw [peel]
    split
    · rename_i hnone
      refine ⟨calls, .last hnear hinner hnone (records_recordIfWanted ?_ _), hsound⟩
      have ha : Attraction g target rest (.empty 0) player (.blank 0) _ := attraction_attract h.range_rest
      exact ha.range
    · rename_i hsome
      obtain ⟨hround, hlt⟩ := h.round hp hs (NodeSet.exists_mem_of_not_isEmpty hsome) rfl
      obtain ⟨calls', hrest, hsound'⟩ := ih hround (by omega)
      refine ⟨calls ++ calls', .next hnear hinner hsome (takesAway_opponentAttractor h.range_rest)
        (records_recordIfWanted (takenAway (Player.opponent_ne_stochastic hp) h.range_rest).range _)
        hrest, ?_⟩
      intro c hc
      exact (List.mem_append.mp hc).elim (hsound c) (hsound' c)

private theorem atOnce_iff {region : NodeSet} {least : Nat} :
    s.AtOnce g region least ↔
      (s.sameParityShortcut && region.toList.all fun v => g.priority v % 2 = least % 2) = true := by
  simp [AtOnce]

theorem ends_splitRegion (s : Recursive) (depth : Nat) {region : NodeSet} (hr : region.range = g.size)
    (ht : g.Total region) {σ : Strategy} (hσ : σ.size = g.size) (hd : region.size ≤ depth) :
    Ends s g q (.split region) σ (s.splitRegion g.arena q depth region σ) := by
  induction depth generalizing region σ with
  | zero =>
    have hempty := NodeSet.not_mem_of_size_eq_zero (Nat.le_zero.mp hd)
    refine ⟨_, .nothing (leastPriority?_eq_none_iff.mpr hempty), ?_⟩
    simpa using Call.Sound.mk ht (Settled.of_empty hempty (q := q)).partitions
  | succ depth ih =>
    have hsettled := s.settled_splitRegion (depth + 1) hr ht hσ hd (q := q)
    generalize hanswer : s.splitRegion g.arena q (depth + 1) region σ = answer at hsettled ⊢
    have hsound : Call.Sound g ⟨region, answer⟩ := ⟨ht, hsettled.partitions⟩
    rw [splitRegion] at hanswer
    split at hanswer
    · rename_i hnone
      subst hanswer
      exact ⟨_, .nothing hnone, by simpa using hsound⟩
    · rename_i least hleast
      dsimp only at hanswer
      split at hanswer
      · rename_i honce
        subst hanswer
        exact ⟨_, .sameParity hleast (atOnce_iff.mpr honce) rfl, by simpa using hsound⟩
      · rename_i honce
        obtain ⟨⟨w, hw, hwl⟩, -⟩ := leastPriority?_eq_some hleast
        obtain ⟨calls, hrun, hcalls⟩ := ends_peel (s := s) (Player.ofPriority_ne_stochastic least)
          (fun part σ hpr hpt hps hlt => ⟨s.settled_splitRegion depth hpr hpt hps (by omega),
            ih hpr hpt hps (by omega)⟩)
          (region.range + 1) (peeled_start hr ht hσ hw hwl) (Nat.lt_succ_of_le region.size_le_range)
        subst hanswer
        refine ⟨_, .rounds hleast (fun h => honce (atOnce_iff.mp h)) hrun, ?_⟩
        intro c hc
        rcases List.mem_cons.mp hc with rfl | hc
        · exact hsound
        · exact hcalls c hc

/-- On every valid game the recursion comes to its end, whatever is asked for. The regions split all
nodes, and so does every answer on the way split the region of its call, in which all nodes can stay. -/
theorem solve_runs [Scalar W] (s : Recursive) (g : Game W) (q : Query) (hg : g.Valid) :
    ∃ answer calls, Runs s g.arena q (.split (.full g.size)) (.blank g.size) answer calls ∧
      (∀ answer' calls', Runs s g.arena q (.split (.full g.size)) (.blank g.size) answer' calls' →
        answer' = answer ∧ calls' = calls) ∧
      s.solve g q =
        .ok ⟨answer.even, answer.odd, if q.request.any then some answer.strategy else none⟩ ∧
      (∀ v, v < g.size ↔ v ∈ answer.even ∨ v ∈ answer.odd) ∧ (∀ v ∈ answer.even, v ∉ answer.odd) ∧
      ∀ c ∈ calls, g.Total c.region ∧ c.answer.Partitions g c.region := by
  have hpartitions := (s.settled_full q hg).partitions
  obtain ⟨calls, hrun, hsound⟩ := s.ends_splitRegion (g.size + 1) (q := q) (NodeSet.range_full _)
    hg.total_full (Strategy.size_blank _) (Nat.le_of_lt (NodeSet.size_full_lt g.size))
  refine ⟨_, calls, hrun, fun _ _ hrun' => hrun'.unique hrun, s.solve_eq_ok q hg, ?_,
    hpartitions.disjoint, ?_⟩
  · intro v
    rw [← NodeSet.mem_full, hpartitions.mem]
  · intro c hc
    exact ⟨(hsound c hc).total, (hsound c hc).partitions⟩

/-- With Odd strict and without the shortcut the recursion on the gamble ends. -/
theorem solve_gamble_runs : Game.gamble.Valid ∧ Game.gamble.owner 1 = .stochastic ∧
    ∃ answer calls, Runs ⟨false⟩ Game.gamble.arena ⟨false, .both⟩ (.split (.full Game.gamble.size))
        (.blank Game.gamble.size) answer calls ∧
      Recursive.solve ⟨false⟩ Game.gamble ⟨false, .both⟩ =
        .ok ⟨answer.even, answer.odd, some answer.strategy⟩ ∧
      (∀ v, v < Game.gamble.size ↔ v ∈ answer.even ∨ v ∈ answer.odd) ∧
      ∀ c ∈ calls, Game.gamble.Total c.region ∧ c.answer.Partitions Game.gamble c.region := by
  obtain ⟨answer, calls, hrun, -, hsolve, hmem, -, hcalls⟩ :=
    solve_runs ⟨false⟩ Game.gamble ⟨false, .both⟩ Game.valid_gamble
  exact ⟨Game.valid_gamble, rfl, answer, calls, hrun, hsolve, hmem, hcalls⟩

end Recursive
end OmegaGames
