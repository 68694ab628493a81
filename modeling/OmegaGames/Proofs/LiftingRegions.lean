import OmegaGames.Proofs.LiftingRun
import OmegaGames.Proofs.Plays

/-!
# The regions found by lifting

In a table that no lift changes, Even holds the nodes below the greatest measure: along its decisions
the rank, counted in units of an odd priority, never rises among larger priorities and falls at the
priority itself. In the other direction, what Even holds without chance gets counts that cover their own
demands: at a level, the nodes of its priority that can still be reached without seeing a smaller one.
Lifting stays below these counts.
-/
namespace OmegaGames

open Relation

variable {W : Type} {g : Game W}

namespace Lifting

open OmegaGames.Level OmegaGames.Measure

variable {levels : List Level} {t : Table} {σ : Strategy}

/-! ## What lifting leaves below the top is held -/

/-- Along the decisions of Even and all other edges, ranks meet the demands of a lift. -/
private theorem climb_le_of_follows [Scalar W] (hv : g.Valid) (hs : Increasing levels)
    (hr : Rising g levels t) (hst : Stable g levels t) {u w : Nat}
    (hbest : g.owner u = .even → σ.get u = some (bestPosition g t u)) (huw : g.Follows .even σ u w) :
    climb levels (g.priority u) (rankAt levels t w) ≤ rankAt levels t u := by
  have hlt := g.lt_size_of_mem_succs huw.mem_succs
  have hne := hv.succs_ne_nil hlt
  have heq : (lifted g levels t u).rank levels = rankAt levels t u := by rw [hst u hlt, rankAt]
  by_cases ho : g.owner u = .even
  · obtain ⟨b, hb, -⟩ := bestPosition_spec hr.fits hne
    obtain rfl := huw.eq_of_decided ho (hbest ho) hb
    rw [← heq]
    simp only [lifted, hb]
    exact (rank_raise hs _ (hr.fits w)).ge
  · exact ((rank_lifted_le_iff hs hr.fits hne _).mp heq.le).2 ho w huw.mem_succs

/-- Below the greatest measure, ranks that meet the demands of a lift leave no room for an odd least
priority: counted in units of it, the rank never rises and falls where it is seen. -/
private theorem ofPriority_eq_even_of_climb {arena C : Set Nat} {p : Nat}
    (hC : EndComponent g .even σ arena C) (hlow : ∀ u ∈ C, rankAt levels t u < volume levels)
    (hstep : ∀ u ∈ C, ∀ w, g.Follows .even σ u w →
      climb levels (g.priority u) (rankAt levels t w) ≤ rankAt levels t u)
    (hp : IsLeast (g.priority '' C) p) : Player.ofPriority p = .even := by
  by_contra hodd
  have hp1 : p % 2 = 1 := by
    simp only [Player.ofPriority] at hodd
    split at hodd
    · exact absurd rfl hodd
    · omega
  have hdown : ∀ {a b}, ReflTransGen (Inside (g.Follows .even σ) C) a b →
      rankAt levels t b / unit p levels ≤ rankAt levels t a / unit p levels := by
    intro a b hab
    induction hab with
    | refl => exact le_rfl
    | tail _ hbc ih =>
      obtain ⟨hb, -, hfol⟩ := hbc
      have hpb := hp.2 ⟨_, hb, rfl⟩
      exact (div_le_of_climb_le hpb (hstep _ hb _ hfol) (hlow _ hb)).trans ih
  obtain ⟨u, hu, hup⟩ := hp.1
  obtain ⟨w, hw, huw⟩ := hC.alive u hu
  have hfall : rankAt levels t w / unit p levels < rankAt levels t u / unit p levels := by
    have hclimb := hstep u hu w huw
    rw [hup] at hclimb
    exact div_lt_of_climb_le hp1 hclimb (hlow u hu)
  have hback := hdown (hC.connected w hw u hu)
  omega

/-- Even holds the nodes below the greatest measure by choosing the best positions. -/
theorem dominion_of_stable [Scalar W] (hv : g.Valid) (hs : Increasing levels) (hr : Rising g levels t)
    (hst : Stable g levels t)
    (hbest : ∀ u < g.size, g.owner u = .even → σ.get u = some (bestPosition g t u)) :
    Dominion g .even σ (NodeSet.full g.size).toSet
      {v | v < g.size ∧ rankAt levels t v < volume levels} := by
  have hstep : ∀ {u w}, u < g.size → g.Follows .even σ u w →
      climb levels (g.priority u) (rankAt levels t w) ≤ rankAt levels t u := fun hu huw =>
    climb_le_of_follows hv hs hr hst (hbest _ hu) huw
  have hkeep : ∀ {u w}, u < g.size → rankAt levels t u < volume levels → g.Follows .even σ u w →
      w < g.size ∧ rankAt levels t w < volume levels := fun hu hlow huw =>
    ⟨hv.succ_lt huw.mem_succs, lt_volume_of_climb ((hstep hu huw).trans_lt hlow)⟩
  refine { inside := fun v hvw => NodeSet.mem_full.mpr hvw.1, decided := ?_, closed := ?_, parity := ?_ }
  · rintro u ⟨hu, hlow⟩ ho
    obtain ⟨b, hb, -⟩ := bestPosition_spec hr.fits (hv.succs_ne_nil hu)
    exact ⟨_, b, hbest u hu ho, hb, hkeep hu hlow ⟨_, hb, fun _ => hbest u hu ho⟩⟩
  · rintro u ⟨hu, hlow⟩ ho w hw -
    exact hkeep hu hlow (Game.follows_of_mem_succs ho hw)
  · intro C hC hsub p hp
    refine ofPriority_eq_even_of_climb hC (fun u hu => (hsub hu).2) (fun u hu w huw => ?_) hp
    exact hstep (hsub hu).1 huw

/-! ## What Even holds stays below the top -/

section Held

variable (g σ) (won : Set Nat)

private def From (q : Nat) : Set Nat := {v | v ∈ won ∧ q ≤ g.priority v}

/-- The nodes of priority `q` that Even's play reaches from `v` without seeing a smaller priority. -/
private def seen (q v : Nat) : Set Nat :=
  {w | w < g.size ∧ g.priority w = q ∧
    ReflTransGen (Inside (g.Follows .even σ) (From g won q)) v w}

variable {g σ won}

private theorem finite_seen (q v : Nat) : (seen g σ won q v).Finite :=
  (Set.finite_lt_nat g.size).subset fun _ hw => hw.1

private theorem mem_from_of_reaches {q u w : Nat} (hw : w ∈ From g won q)
    (h : ReflTransGen (Inside (g.Follows .even σ) (From g won q)) u w) : u ∈ From g won q := by
  rcases h.cases_head with rfl | ⟨_, hstep, -⟩
  · exact hw
  · exact hstep.1

private theorem seen_subset {q u v : Nat} (hv : v ∈ won) (hu : u ∈ won) (hq : q ≤ g.priority v)
    (hvu : g.Follows .even σ v u) : seen g σ won q u ⊆ seen g σ won q v := by
  rintro w ⟨hw, hwq, huw⟩
  refine ⟨hw, hwq, ?_⟩
  by_cases huq : q ≤ g.priority u
  · exact .head ⟨⟨hv, hq⟩, ⟨hu, huq⟩, hvu⟩ huw
  · rcases huw.cases_head with rfl | ⟨_, hstep, -⟩
    · omega
    · exact absurd hstep.1.2 huq

/-- A node of odd priority is not seen again without a smaller priority in between. -/
private theorem not_mem_seen (h : Dominion g .even σ (NodeSet.full g.size).toSet won)
    (hno : ∀ v < g.size, g.owner v ≠ .stochastic) {u v : Nat} (hv : v ∈ won)
    (hodd : g.priority v % 2 = 1) (hvu : g.Follows .even σ v u) :
    v ∉ seen g σ won (g.priority v) u := by
  rintro ⟨-, -, huv⟩
  have hvF : v ∈ From g won (g.priority v) := ⟨hv, le_rfl⟩
  have hvu' : Inside (g.Follows .even σ) (From g won (g.priority v)) v u :=
    ⟨hvF, mem_from_of_reaches hvF huv, hvu⟩
  -- Otherwise the nodes on the way from `v` back to `v` are an end component that favours Odd.
  let step := Inside (g.Follows .even σ) (From g won (g.priority v))
  let C : Set Nat := {w | ReflTransGen step v w ∧ ReflTransGen step w v}
  have hCF : C ⊆ From g won (g.priority v) := fun w hw => mem_from_of_reaches hvF hw.2
  have hEC : EndComponent g .even σ (NodeSet.full g.size).toSet C := by
    refine { nonempty := ⟨v, .refl, .refl⟩, inside := fun w hw => h.inside (hCF hw).1
             chance := fun w hw hs => ?_, alive := fun w hw => ?_, connected := fun a ha b hb => ?_ }
    · exact absurd hs (hno w (NodeSet.mem_full.mp (h.inside (hCF hw).1)))
    · rcases hw.2.cases_head with rfl | ⟨d, hwd, hdv⟩
      · exact ⟨u, ⟨.single hvu', huv⟩, hvu⟩
      · exact ⟨d, ⟨hw.1.tail hwd, hdv⟩, hwd.2.2⟩
    · exact reflTransGen_inside_mono (fun _ _ _ hcd => hcd.2.2)
        (reflTransGen_inside_of_mutual ha.1 (ha.2.trans hb.1) hb.2)
  have hleast : IsLeast (g.priority '' C) (g.priority v) := by
    refine ⟨⟨v, ⟨.refl, .refl⟩, rfl⟩, ?_⟩
    rintro _ ⟨w, hw, rfl⟩
    exact (hCF hw).2
  have heven := h.parity C hEC (fun w hw => (hCF hw).1) _ hleast
  simp [Player.ofPriority, hodd] at heven

open Classical in
/-- The rank that the seen nodes give, and the greatest one outside the region. -/
private noncomputable def seenRank (g : Game W) (σ : Strategy) (won : Set Nat) (v : Nat) : Nat :=
  if v ∈ won then value (ofGame g) ((ofGame g).map fun l => (seen g σ won l.priority v).ncard)
  else volume (ofGame g)

private theorem seen_le_bound {l : Level} (hl : l ∈ ofGame g) (v : Nat) :
    (seen g σ won l.priority v).ncard ≤ l.bound := by
  rw [bound_ofGame g hl]
  exact Set.ncard_le_ncard (fun w hw => ⟨hw.1, hw.2.1⟩)
    ((Set.finite_lt_nat g.size).subset fun _ hw => hw.1)

private theorem climb_seenRank_le (h : Dominion g .even σ (NodeSet.full g.size).toSet won)
    (hno : ∀ v < g.size, g.owner v ≠ .stochastic) {u v : Nat} (hv : v ∈ won) (hu : u ∈ won)
    (hvu : g.Follows .even σ v u) :
    climb (ofGame g) (g.priority v) (seenRank g σ won u) ≤ seenRank g σ won v := by
  rw [seenRank, seenRank, if_pos hu, if_pos hv]
  refine climb_le_value (increasing_ofGame g) (fun l hl => seen_le_bound hl u) ?_ ?_
  · intro l _ hlv
    exact Set.ncard_le_ncard (seen_subset hv hu hlv hvu) (finite_seen _ _)
  · intro hodd
    have hlt : v < g.size := NodeSet.mem_full.mp (h.inside hv)
    obtain ⟨l, hl, hlp⟩ := exists_mem_ofGame g hlt hodd
    refine ⟨l, hl, hlp, ?_⟩
    rw [hlp]
    refine Set.ncard_lt_ncard ⟨seen_subset hv hu le_rfl hvu, fun hsub => ?_⟩ (finite_seen _ _)
    exact not_mem_seen h hno hv hodd hvu (hsub ⟨hlt, rfl, .refl⟩)

/-- The nodes that Even holds stay below the greatest measure. -/
theorem rankAt_lt_of_dominion [Scalar W] (hval : g.Valid) (hr : Rising g (ofGame g) t)
    (h : Dominion g .even σ (NodeSet.full g.size).toSet won)
    (hno : ∀ v < g.size, g.owner v ≠ .stochastic) {v : Nat} (hv : v ∈ won) :
    rankAt (ofGame g) t v < volume (ofGame g) := by
  have hlt : v < g.size := NodeSet.mem_full.mp (h.inside hv)
  have hcov : ∀ u < g.size, Covers g (ofGame g) (seenRank g σ won) u (seenRank g σ won u) := by
    intro u hu
    by_cases huw : u ∈ won
    · refine ⟨fun ho => ?_, fun ho w hw => ?_⟩
      · obtain ⟨i, w, hi, hw, hww⟩ := h.decided u huw ho
        exact ⟨w, g.mem_succs_of_succ? hw, climb_seenRank_le h hno huw hww ⟨i, hw, fun _ => hi⟩⟩
      · have hww := h.closed u huw ho w hw (NodeSet.mem_full.mpr (hval.succ_lt hw))
        exact climb_seenRank_le h hno huw hww (Game.follows_of_mem_succs ho hw)
    · obtain ⟨w, hw⟩ := List.exists_mem_of_ne_nil _ (hval.succs_ne_nil hu)
      have htop : seenRank g σ won u = volume (ofGame g) := by rw [seenRank, if_neg huw]
      rw [htop]
      exact ⟨fun _ => ⟨w, hw, min_le_left _ _⟩, fun _ _ _ => min_le_left _ _⟩
  refine (hr.below _ hcov v hlt).trans_lt ?_
  rw [seenRank, if_pos hv]
  exact value_lt_volume (within_map fun l hl => seen_le_bound hl v)

end Held

end Lifting
end OmegaGames
