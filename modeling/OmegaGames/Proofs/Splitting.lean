import OmegaGames.Proofs.Peeling

/-!
# The recursive solution splits every region

`Settled` says what the split of a region is known to be: every node is on one side, decisions change
inside the region only, and a player that is treated exactly holds its side by the recorded decisions.
`Peeled` is what the rounds of one call keep true: the opponent holds what was taken away so far, and
only the player can leave what is left.
-/
namespace OmegaGames

open Recursive

variable {W : Type}

namespace Split

theorem won_ofSides_self {x : Player} (hx : x ≠ .stochastic) (own other : NodeSet) (σ : Strategy) :
    (ofSides x own other σ).won x = own := by
  cases x <;> simp [ofSides, won] at hx ⊢

theorem won_ofSides_opponent {x : Player} (hx : x ≠ .stochastic) (own other : NodeSet) (σ : Strategy) :
    (ofSides x own other σ).won x.opponent = other := by
  cases x <;> simp [ofSides, won, Player.opponent] at hx ⊢

@[simp] theorem strategy_ofSides (x : Player) (own other : NodeSet) (σ : Strategy) :
    (ofSides x own other σ).strategy = σ := by
  cases x <;> rfl

end Split

/-- What is known of the split of a region that was begun with the decisions `σ`. -/
structure Settled (g : Game W) (q : Query) (region : NodeSet) (σ : Strategy) (s : Split) : Prop where
  range : ∀ x, x ≠ .stochastic → (s.won x).range = g.size
  mem : ∀ x, x ≠ .stochastic → ∀ v, v ∈ region ↔ v ∈ s.won x ∨ v ∈ s.won x.opponent
  disjoint : ∀ x, x ≠ .stochastic → ∀ v ∈ s.won x, v ∉ s.won x.opponent
  size : s.strategy.size = σ.size
  frame : ∀ v, v ∉ region → s.strategy.get v = σ.get v
  held : ∀ x, x ≠ .stochastic → q.Exact g x → q.request.wants x = true →
    Dominion g x s.strategy region.toSet (s.won x).toSet

namespace Settled

variable {g : Game W} {q : Query} {region : NodeSet} {σ : Strategy}

theorem ofSides {x : Player} (hx : x ≠ .stochastic) {own other : NodeSet} {σ' : Strategy}
    (hown : own.range = g.size) (hother : other.range = g.size)
    (hmem : ∀ v, v ∈ region ↔ v ∈ own ∨ v ∈ other) (hdis : ∀ v ∈ own, v ∉ other)
    (hsize : σ'.size = σ.size) (hframe : ∀ v, v ∉ region → σ'.get v = σ.get v)
    (hheld : q.Exact g x → q.request.wants x = true → Dominion g x σ' region.toSet own.toSet)
    (hheld' : q.Exact g x.opponent → q.request.wants x.opponent = true →
      Dominion g x.opponent σ' region.toSet other.toSet) :
    Settled g q region σ (.ofSides x own other σ') := by
  have hwx := Split.won_ofSides_self hx own other σ'
  have hwo := Split.won_ofSides_opponent hx own other σ'
  refine { range := ?_, mem := ?_, disjoint := ?_, size := by simpa using hsize
           frame := by simpa using hframe, held := ?_ }
  · intro y hy
    rcases Player.eq_or_eq_opponent hy hx with rfl | rfl
    · rw [hwx, hown]
    · rw [hwo, hother]
  · intro y hy v
    rcases Player.eq_or_eq_opponent hy hx with rfl | rfl
    · rw [hwx, hwo, hmem]
    · rw [Player.opponent_opponent, hwx, hwo, hmem, or_comm]
  · intro y hy v
    rcases Player.eq_or_eq_opponent hy hx with rfl | rfl
    · rw [hwx, hwo]
      exact hdis v
    · rw [Player.opponent_opponent, hwx, hwo]
      exact fun hv hv' => hdis v hv' hv
  · intro y hy hex hw
    rw [Split.strategy_ofSides]
    rcases Player.eq_or_eq_opponent hy hx with rfl | rfl
    · rw [hwx]
      exact hheld hex hw
    · rw [hwo]
      exact hheld' hex hw

theorem of_empty (h : ∀ v, v ∉ region) :
    Settled g q region σ ⟨.empty g.size, .empty g.size, σ⟩ := by
  refine ofSides (x := .even) (by simp) (by simp) (by simp) ?_ ?_ rfl (fun _ _ => rfl) ?_ ?_
  · intro v
    simpa using h v
  · intro v hv
    exact absurd hv (NodeSet.not_mem_empty _ _)
  · intro _ _
    rw [NodeSet.toSet_empty]
    exact Dominion.empty
  · intro _ _
    rw [NodeSet.toSet_empty]
    exact Dominion.empty

end Settled

/-- The state of a call between two rounds: `rest` is left of the region, `lost` was taken away. -/
structure Peeled (g : Game W) (q : Query) (player : Player) (target region : NodeSet) (σ₀ : Strategy)
    (rest lost : NodeSet) (σ : Strategy) : Prop where
  range_rest : rest.range = g.size
  range_lost : lost.range = g.size
  mem : ∀ v, v ∈ region ↔ v ∈ rest ∨ v ∈ lost
  disjoint : ∀ v ∈ rest, v ∉ lost
  total : g.Total rest
  size : σ.size = g.size
  frame : ∀ v, v ∉ region → σ.get v = σ₀.get v
  progress : (∃ v ∈ rest, v ∈ target) ∨ ∃ v ∈ region, v ∉ rest
  trap : q.Exact g player → ∀ u ∈ rest, g.owner u ≠ player → ∀ t ∈ g.succs u, t ∈ region → t ∈ rest
  held : q.Exact g player.opponent → q.request.wants player.opponent = true →
    Dominion g player.opponent σ region.toSet lost.toSet

namespace Peeled

variable {g : Game W} {q : Query} {player : Player} {target region rest lost : NodeSet}
  {σ₀ σ : Strategy}

private theorem diff_lost (h : Peeled g q player target region σ₀ rest lost σ) :
    region.toSet \ lost.toSet = rest.toSet := by
  ext v
  have hm := h.mem v
  have hd := h.disjoint v
  simp only [Set.mem_sdiff, NodeSet.mem_toSet, NodeSet.mem_iff] at hm hd ⊢
  tauto

/-- The nodes apart from the attractor of the target can stay among themselves. -/
theorem total_apart (h : Peeled g q player target region σ₀ rest lost σ) :
    g.Total (rest.diff (g.arena.strongAttractor target rest player)) := by
  obtain ⟨f, hf, ha⟩ := g.attraction_strongAttractor target player h.range_rest
  rw [← hf]
  intro u hu
  obtain ⟨hur, huf⟩ := NodeSet.mem_diff.mp hu
  obtain ⟨t, ht, htr, htf⟩ := ha.exists_outside hur huf (NodeSet.not_mem_empty 0 u) (h.total u hur)
  exact ⟨t, ht, NodeSet.mem_diff.mpr ⟨htr, htf⟩⟩

/-- A call is always about fewer nodes than the region it comes from. -/
theorem size_apart_lt (h : Peeled g q player target region σ₀ rest lost σ) :
    (rest.diff (g.arena.strongAttractor target rest player)).size < region.size := by
  obtain ⟨f, hf, ha⟩ := g.attraction_strongAttractor target player h.range_rest
  rw [← hf]
  have hsub : ∀ v ∈ rest.diff f.reached, v ∈ region := fun v hv =>
    (h.mem v).mpr (Or.inl (NodeSet.mem_diff.mp hv).1)
  rcases h.progress with ⟨v, hv, hvt⟩ | ⟨v, hv, hvr⟩
  · refine NodeSet.size_lt_of_subset hsub ((h.mem v).mpr (Or.inl hv)) fun hd => ?_
    exact (NodeSet.mem_diff.mp hd).2 (ha.seeded v hv hvt)
  · refine NodeSet.size_lt_of_subset hsub hv fun hd => hvr (NodeSet.mem_diff.mp hd).1

section Round

variable {s : Split} (hp : player ≠ .stochastic) (h : Peeled g q player target region σ₀ rest lost σ)
  (hs : Settled g q (rest.diff (g.arena.strongAttractor target rest player)) σ s)

include hs in
private theorem get_inner {u : Nat} (hu : u ∉ rest) : s.strategy.get u = σ.get u :=
  hs.frame u fun hd => hu (NodeSet.mem_diff.mp hd).1

include hp hs in
private theorem theirs_subset {v : Nat} (hv : v ∈ s.won player.opponent) : v ∈ rest :=
  (NodeSet.mem_diff.mp ((hs.mem player hp v).mpr (Or.inr hv))).1

include hp h hs in
/-- What the opponent holds apart from the target's attractor it holds in all that is left. -/
private theorem dominion_theirs (hex : q.Exact g player.opponent)
    (hw : q.request.wants player.opponent = true) :
    Dominion g player.opponent s.strategy rest.toSet (s.won player.opponent).toSet := by
  obtain ⟨f, hf, ha⟩ := g.attraction_strongAttractor target player h.range_rest
  have hd := hs.held _ (Player.opponent_ne_stochastic hp) hex hw
  rw [← hf] at hd hs
  refine hd.enlarge (fun v hv => (NodeSet.mem_diff.mp hv).1) ?_
  intro u hu ho t ht htr
  obtain ⟨hur, huf⟩ := NodeSet.mem_diff.mp ((hs.mem player hp u).mpr (Or.inr hu))
  have hown := Player.eq_opponent_or_stochastic (Player.opponent_ne_stochastic hp) ho
  rw [Player.opponent_opponent] at hown
  exact NodeSet.mem_diff.mpr
    ⟨htr, ha.avoids u hur huf (NodeSet.not_mem_empty 0 u) hown t ht⟩

include hp h hs in
theorem round {away : NodeSet} (hne : ∃ v, v ∈ s.won player.opponent)
    (haway : away = opponentAttractor g.arena q (s.won player.opponent) rest player.opponent) :
    Peeled g q player target region σ₀ (rest.diff away) (lost.union away)
        (recordIfWanted g.arena q.request (s.won player.opponent) away player.opponent
          s.strategy) ∧
      (rest.diff away).size < rest.size := by
  have ht : TakenAway g q (s.won player.opponent) rest player.opponent away :=
    haway ▸ takenAway (Player.opponent_ne_stochastic hp) h.range_rest
  have hleft : ∀ v, v ∈ rest.diff away ↔ v ∈ rest ∧ v ∉ away := fun v => NodeSet.mem_diff
  have hlost : ∀ v, v ∈ lost.union away ↔ v ∈ lost ∨ v ∈ away := fun v =>
    NodeSet.mem_union (h.range_lost.trans ht.range.symm)
  obtain ⟨w, hw⟩ := hne
  have hwr := theirs_subset hp hs hw
  have hwa := ht.seeded w hwr hw
  have hsize : s.strategy.size = g.size := hs.size.trans h.size
  -- Decisions outside of what is left do not change.
  have hkeep : ∀ v, v ∉ rest → (recordIfWanted g.arena q.request (s.won player.opponent)
      away player.opponent s.strategy).get v = σ.get v := by
    intro v hv
    rw [get_recordIfWanted q.request ht.range _ fun hva => hv (ht.inside v hva)]
    exact get_inner hs hv
  refine ⟨?_, NodeSet.size_lt_of_subset (fun v hv => ((hleft v).mp hv).1) hwr
    fun hd => ((hleft w).mp hd).2 hwa⟩
  refine {
    range_rest := by simpa using h.range_rest
    range_lost := by simpa using h.range_lost
    mem := ?mem, disjoint := ?disjoint, total := ?total, frame := ?frame
    size := (size_recordIfWanted q.request ht.range _).trans hsize
    progress := Or.inr ⟨w, (h.mem w).mpr (Or.inl hwr), fun hd => ((hleft w).mp hd).2 hwa⟩
    trap := ?trap, held := ?held }
  case mem =>
    intro v
    rw [h.mem v, hleft, hlost]
    have hin := ht.inside v
    tauto
  case disjoint =>
    intro v hv hvl
    obtain ⟨hvr, hva⟩ := (hleft v).mp hv
    rcases (hlost v).mp hvl with hvl | hvl
    · exact h.disjoint v hvr hvl
    · exact hva hvl
  case total =>
    intro u hu
    obtain ⟨hur, hua⟩ := (hleft u).mp hu
    obtain ⟨t, hst, htr, hta⟩ := ht.total h.total u hur hua
    exact ⟨t, hst, (hleft t).mpr ⟨htr, hta⟩⟩
  case frame =>
    intro v hv
    rw [hkeep v fun hvr => hv ((h.mem v).mpr (Or.inl hvr))]
    exact h.frame v hv
  case trap =>
    intro hex u hu ho t hst htr
    obtain ⟨hur, hua⟩ := (hleft u).mp hu
    refine (hleft t).mpr ⟨h.trap hex u hur ho t hst htr, ?_⟩
    refine ht.trap ?_ u hur hua ?_ t hst <;> rwa [Player.opponent_opponent]
  case held =>
    intro hex hwants
    have hset : (lost.union away).toSet = lost.toSet ∪ away.toSet := Set.ext hlost
    have hold := (h.held hex hwants).congr fun u hu => hkeep u fun hur => h.disjoint u hur hu
    -- What is new is held inside what was left, so both parts together are held in the region.
    have hnew := ht.dominion hex hsize (dominion_theirs hp h hs hex hwants)
    rw [recordIfWanted, if_pos hwants] at hold ⊢
    rw [hset]
    refine hold.union ?_
    rw [h.diff_lost]
    exact hnew

include hp h hs in
/-- The last round: the opponent wins nothing apart from the target's attractor, and what is left goes
to the player. -/
theorem finish {least : Nat} (hl : Player.ofPriority least = player)
    (hleast : ∀ u ∈ region, least ≤ g.priority u) (htarget : ∀ u ∈ target, g.priority u = least)
    (hnone : ∀ v, v ∉ s.won player.opponent) (hsize₀ : σ₀.size = g.size) :
    Settled g q region σ₀ (.ofSides player rest lost
      (recordIfWanted g.arena q.request (target.inter rest)
        (g.arena.strongAttractor target rest player) player
        (stayInside g q.request rest (target.inter rest).toList s.strategy))) := by
  obtain ⟨f, hf, ha⟩ := g.attraction_strongAttractor target player h.range_rest
  have hnear : (g.arena.strongAttractor target rest player).range = g.size := hf ▸ ha.range
  have hin : ∀ v ∈ g.arena.strongAttractor target rest player, v ∈ rest := fun v hv =>
    ha.inside v (hf ▸ hv)
  have hsize : s.strategy.size = g.size := hs.size.trans h.size
  have hstay : ∀ v, v ∉ rest →
      (stayInside g q.request rest (target.inter rest).toList s.strategy).get v = σ.get v := by
    intro v hv
    rw [get_stayInside_of_notMem]
    · exact get_inner hs hv
    · intro hmem
      exact hv (NodeSet.mem_inter.mp ((NodeSet.mem_toList _ v).mp hmem)).2
  have hkeep : ∀ v, v ∉ rest → (recordIfWanted g.arena q.request (target.inter rest)
      (g.arena.strongAttractor target rest player) player
      (stayInside g q.request rest (target.inter rest).toList s.strategy)).get v = σ.get v := by
    intro v hv
    rw [get_recordIfWanted q.request hnear _ fun hvn => hv (hin v hvn), hstay v hv]
  refine Settled.ofSides hp h.range_rest h.range_lost h.mem h.disjoint ?size ?frame ?held ?held'
  case size => rw [size_recordIfWanted q.request hnear, size_stayInside, hsize, hsize₀]
  case frame =>
    intro v hv
    rw [hkeep v fun hvr => hv ((h.mem v).mpr (Or.inl hvr))]
    exact h.frame v hv
  case held =>
    intro hex hw
    have hinner := hs.held player hp hex hw
    have hall : (s.won player).toSet =
        (rest.diff (g.arena.strongAttractor target rest player)).toSet := by
      ext v
      exact ⟨fun hv => (hs.mem player hp v).mpr (Or.inl hv), fun hv =>
        ((hs.mem player hp v).mp hv).resolve_right (hnone v)⟩
    rw [hall] at hinner
    have hd := dominion_of_near h.range_rest h.total hsize hw hl
      (fun u hu => hleast u ((h.mem u).mpr (Or.inl hu))) htarget rfl hinner
    rw [recordIfWanted, if_pos hw]
    exact hd.enlarge (fun v hv => (h.mem v).mpr (Or.inl hv)) fun u hu => h.trap hex u hu
  case held' =>
    intro hex hw
    exact (h.held hex hw).congr fun u hu => hkeep u fun hur => h.disjoint u hur hu

end Round

/-- All rounds of a call, if the calls about fewer nodes are answered rightly. -/
theorem peel (hp : player ≠ .stochastic) {solve : NodeSet → Strategy → Split} {least : Nat}
    (hsolve : ∀ (part : NodeSet) (σ : Strategy), part.range = g.size → g.Total part →
      σ.size = g.size → part.size < region.size → Settled g q part σ (solve part σ))
    (hl : Player.ofPriority least = player) (hleast : ∀ u ∈ region, least ≤ g.priority u)
    (htarget : ∀ u ∈ target, g.priority u = least) (hsize₀ : σ₀.size = g.size) (rounds : Nat)
    (h : Peeled g q player target region σ₀ rest lost σ) (hrounds : rest.size < rounds) :
    Settled g q region σ₀ (Recursive.peel g.arena q solve player target rounds rest lost σ) := by
  induction rounds generalizing rest lost σ with
  | zero => exact absurd hrounds (Nat.not_lt_zero _)
  | succ rounds ih =>
    have hs := hsolve (rest.diff (g.arena.strongAttractor target rest player)) σ
      (by simpa using h.range_rest) h.total_apart h.size h.size_apart_lt
    rw [Recursive.peel]
    split
    · rename_i hempty
      exact h.finish hp hs hl hleast htarget ((NodeSet.isEmpty_iff _).mp hempty) hsize₀
    · rename_i hempty
      obtain ⟨hround, hlt⟩ := h.round hp hs (NodeSet.exists_mem_of_not_isEmpty hempty) rfl
      exact ih hround (by omega)

end Peeled

namespace Recursive

variable {g : Game W} {q : Query} {region : NodeSet}

theorem leastPriority?_eq_none_iff : leastPriority? g region = none ↔ ∀ v, v ∉ region := by
  rw [leastPriority?, List.min?_eq_none_iff, List.map_eq_nil_iff, List.eq_nil_iff_forall_not_mem]
  simp only [NodeSet.mem_toList, NodeSet.mem_iff]

theorem leastPriority?_eq_some {least : Nat} (h : leastPriority? g region = some least) :
    (∃ v ∈ region, g.priority v = least) ∧ ∀ v ∈ region, least ≤ g.priority v := by
  obtain ⟨hmem, hle⟩ := List.min?_eq_some_iff.mp h
  obtain ⟨v, hv, hp⟩ := List.mem_map.mp hmem
  refine ⟨⟨v, (NodeSet.mem_toList region v).mp hv, hp⟩, fun w hw => ?_⟩
  exact hle _ (List.mem_map.mpr ⟨w, (NodeSet.mem_toList region w).mpr hw, rfl⟩)

private theorem ofPriority_eq_of_mod_eq {p p' : Nat} (h : p % 2 = p' % 2) :
    Player.ofPriority p = Player.ofPriority p' := by
  simp [Player.ofPriority, h]

/-- A region whose priorities all favour one player goes to that player. -/
private theorem settled_sameParity {least : Nat} (hr : region.range = g.size) (ht : g.Total region)
    {σ : Strategy} (hσ : σ.size = g.size)
    (hsame : ∀ u ∈ region, g.priority u % 2 = least % 2) :
    Settled g q region σ (.ofSides (Player.ofPriority least) region (.empty g.size)
      (stayInside g q.request region region.toList σ)) := by
  refine Settled.ofSides (Player.ofPriority_ne_stochastic least) hr (by simp) (fun v => by simp)
    (fun v _ => NodeSet.not_mem_empty _ _) (size_stayInside _ _ _ _ _) ?_ ?_ ?_
  · intro v hv
    exact get_stayInside_of_notMem _ _ _ _ _ fun hmem => hv ((NodeSet.mem_toList _ _).mp hmem)
  · intro _ hwants
    refine Dominion.of_sameParity (fun u hu => ofPriority_eq_of_mod_eq (hsame u hu)) ?_
    intro u hu ho
    have husize : u < σ.size := hσ ▸ hr ▸ NodeSet.lt_range hu
    exact get_stayInside_of_mem g q.request region _ σ ((NodeSet.mem_toList _ _).mpr hu) husize
      (by rw [ho]; exact hwants) (ht u hu)
  · intro _ _
    rw [NodeSet.toSet_empty]
    exact Dominion.empty

theorem peeled_start {player : Player} {least w : Nat} (hr : region.range = g.size)
    (ht : g.Total region) {σ : Strategy} (hσ : σ.size = g.size) (hw : w ∈ region)
    (hwl : g.priority w = least) :
    Peeled g q player (region.filter fun v => g.priority v = least) region σ region (.empty g.size)
      σ where
  range_rest := hr
  range_lost := by simp
  mem v := by simp
  disjoint v _ := NodeSet.not_mem_empty _ _
  total := ht
  size := hσ
  frame _ _ := rfl
  progress := Or.inl ⟨w, hw, NodeSet.mem_filter.mpr ⟨hw, decide_eq_true hwl⟩⟩
  trap _ _ _ _ _ _ htr := htr
  held _ _ := by
    rw [NodeSet.toSet_empty]
    exact Dominion.empty

/-- Every region in which all nodes can stay is split, and whoever is treated exactly holds its side. -/
theorem settled_splitRegion (s : Recursive) (depth : Nat) (hr : region.range = g.size)
    (ht : g.Total region) {σ : Strategy} (hσ : σ.size = g.size) (hd : region.size ≤ depth) :
    Settled g q region σ (s.splitRegion g.arena q depth region σ) := by
  induction depth generalizing region σ with
  | zero => exact Settled.of_empty (NodeSet.not_mem_of_size_eq_zero (Nat.le_zero.mp hd))
  | succ depth ih =>
    rw [splitRegion]
    split
    · rename_i hnone
      exact Settled.of_empty (leastPriority?_eq_none_iff.mp hnone)
    · rename_i least hsome
      obtain ⟨⟨w, hw, hwl⟩, hleast⟩ := leastPriority?_eq_some hsome
      dsimp only
      split
      · rename_i hsame
        simp only [Bool.and_eq_true, List.all_eq_true, decide_eq_true_eq, NodeSet.mem_toList] at hsame
        exact settled_sameParity hr ht hσ hsame.2
      · have htarget : ∀ u ∈ region.filter fun v => g.priority v = least, g.priority u = least := by
          intro u hu
          simpa using (NodeSet.mem_filter.mp hu).2
        exact Peeled.peel (Player.ofPriority_ne_stochastic least)
          (fun part σ hpr hpt hps hlt => ih hpr hpt hps (by omega)) rfl hleast htarget hσ _
          (peeled_start hr ht hσ hw hwl) (Nat.lt_succ_of_le region.size_le_range)

theorem settled_full [Scalar W] (s : Recursive) (q : Query) (hv : g.Valid) :
    Settled g q (.full g.size) (.blank g.size)
      (s.splitRegion g.arena q (g.size + 1) (.full g.size) (.blank g.size)) :=
  s.settled_splitRegion _ (by simp) hv.total_full (by simp) (Nat.le_of_lt (NodeSet.size_full_lt g.size))

theorem solve_eq_ok [Scalar W] (s : Recursive) (q : Query) (hv : g.Valid) :
    s.solve g q = .ok (s.regions g q) := by
  have hnone : g.firstError? = none := hv
  simp [solve, Game.checkValid, hnone, bind, Except.bind, pure, Except.pure]

end Recursive
end OmegaGames
