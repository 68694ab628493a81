import OmegaGames.Proofs.Splitting

/-!
# What the regions do not depend on

The recursive solver finds the same regions whichever decisions are asked for, and with the shortcut as
without it. The shortcut gives a region whose priorities all favour one player to that player at once.
Without it the first round comes to the same end: whatever is attracted, the priorities of the rest favour
the same player, so the opponent wins nothing there. Inner calls then agree under both settings, and the
rounds of the outer calls stay in step.
-/
namespace OmegaGames

variable {W : Type} {g : Game W}

namespace Split

def SameSides (s t : Split) : Prop := s.even = t.even ∧ s.odd = t.odd

theorem SameSides.symm {s t : Split} (h : s.SameSides t) : t.SameSides s := ⟨h.1.symm, h.2.symm⟩

theorem SameSides.trans {s t u : Split} (h : s.SameSides t) (h' : t.SameSides u) : s.SameSides u :=
  ⟨h.1.trans h'.1, h.2.trans h'.2⟩

theorem SameSides.won {s t : Split} (h : s.SameSides t) (x : Player) : s.won x = t.won x := by
  cases x <;> simp [Split.won, h.1, h.2]

theorem sameSides_ofSides (x : Player) (own other : NodeSet) (σ σ' : Strategy) :
    (ofSides x own other σ).SameSides (.ofSides x own other σ') := by
  cases x <;> exact ⟨rfl, rfl⟩

end Split

namespace Recursive

private theorem opponentAttractor_congr {q q' : Query} (hq : q.strictEven = q'.strictEven)
    (a : Arena W) (target region : NodeSet) (x : Player) :
    opponentAttractor a q target region x = opponentAttractor a q' target region x := by
  have hneeds : q.needsAlmostSure x = q'.needsAlmostSure x := by
    cases x <;> simp [Query.needsAlmostSure, hq]
  rw [opponentAttractor, opponentAttractor, hneeds]

private theorem sameSides_peel {q q' : Query} (hq : q.strictEven = q'.strictEven) (a : Arena W)
    {solve solve' : NodeSet → Strategy → Split}
    (hsolve : ∀ region σ σ', (solve region σ).SameSides (solve' region σ')) (x : Player)
    (target : NodeSet) (rounds : Nat) (region lost : NodeSet) (σ σ' : Strategy) :
    (peel a q solve x target rounds region lost σ).SameSides
      (peel a q' solve' x target rounds region lost σ') := by
  induction rounds generalizing region lost σ σ' with
  | zero => exact Split.sameSides_ofSides _ _ _ _ _
  | succ rounds ih =>
    have hwon := (hsolve (region.diff (a.strongAttractor target region x)) σ σ').won x.opponent
    simp only [peel, hwon, opponentAttractor_congr hq]
    split
    · exact Split.sameSides_ofSides _ _ _ _ _
    · exact ih _ _ _ _

/-! ## Regions that favour one player -/

def SameParity (g : Game W) (region : NodeSet) (p : Nat) : Prop := ∀ v ∈ region, g.priority v % 2 = p % 2

section SameParity

variable (s : Recursive) (a : Arena W) (q : Query)

/-- A region of one parity is given to the favoured player if the opponent wins nothing of its parts. -/
private theorem sameSides_of_parts (depth : Nat) {region : NodeSet} {least : Nat}
    (hleast : leastPriority? a.game region = some least)
    (hparts : ∀ part σ, (∀ v ∈ part, v ∈ region) →
      ((s.splitRegion a q depth part σ).won (Player.ofPriority least).opponent).isEmpty = true)
    (σ σ' : Strategy) :
    (s.splitRegion a q (depth + 1) region σ).SameSides
      (.ofSides (.ofPriority least) region (.empty a.game.size) σ') := by
  simp only [splitRegion, hleast]
  split
  · exact Split.sameSides_ofSides _ _ _ _ _
  · rw [peel]
    simp only [hparts _ σ fun v hv => (NodeSet.mem_diff.mp hv).1, if_true]
    exact Split.sameSides_ofSides _ _ _ _ _

/-- The opponent of the favoured player wins nothing of a region of one parity, whatever is attracted on
the way. -/
private theorem isEmpty_won_of_sameParity (depth : Nat) {region : NodeSet} {p : Nat}
    (h : SameParity a.game region p) (σ : Strategy) :
    ((s.splitRegion a q depth region σ).won (Player.ofPriority p).opponent).isEmpty = true := by
  have hempty : ∀ σ x, ((⟨.empty a.game.size, .empty a.game.size, σ⟩ : Split).won x).isEmpty = true := by
    intro σ x
    rw [NodeSet.isEmpty_iff]
    cases x <;> exact NodeSet.not_mem_empty _
  induction depth generalizing region σ with
  | zero => exact hempty σ _
  | succ depth ih =>
    cases hleast : leastPriority? a.game region with
    | none =>
      simp only [splitRegion, hleast]
      exact hempty σ _
    | some least =>
      obtain ⟨⟨w, hw, rfl⟩, -⟩ := leastPriority?_eq_some hleast
      have hplayer : Player.ofPriority (a.game.priority w) = Player.ofPriority p := by
        simp [Player.ofPriority, h w hw]
      have hsides := s.sameSides_of_parts a q depth hleast (fun part σ hpart => by
        rw [hplayer]
        exact ih (fun v hv => h v (hpart v hv)) σ) σ σ
      rw [hsides.won, hplayer, Split.won_ofSides_opponent (Player.ofPriority_ne_stochastic p),
        NodeSet.isEmpty_iff]
      exact NodeSet.not_mem_empty _

/-- A region of one parity goes to the favoured player, with the shortcut or without it. -/
theorem sameSides_of_sameParity (depth : Nat) {region : NodeSet} {least : Nat}
    (hleast : leastPriority? a.game region = some least) (h : SameParity a.game region least)
    (σ σ' : Strategy) :
    (s.splitRegion a q (depth + 1) region σ).SameSides
      (.ofSides (.ofPriority least) region (.empty a.game.size) σ') :=
  s.sameSides_of_parts a q depth hleast
    (fun _ σ hpart => s.isEmpty_won_of_sameParity a q depth (fun v hv => h v (hpart v hv)) σ) σ σ'

end SameParity

private theorem splitRegion_of_not_sameParity (s : Recursive) (a : Arena W) (q : Query) (depth : Nat)
    {region : NodeSet} {least : Nat} (hleast : leastPriority? a.game region = some least)
    (h : ¬ SameParity a.game region least) (σ : Strategy) :
    s.splitRegion a q (depth + 1) region σ =
      peel a q (s.splitRegion a q depth) (.ofPriority least)
        (region.filter fun v => a.game.priority v = least) (region.range + 1) region
        (.empty a.game.size) σ := by
  have hnot : ¬ (s.sameParityShortcut &&
      region.toList.all fun v => a.game.priority v % 2 = least % 2) = true := by
    simp only [Bool.and_eq_true, List.all_eq_true, NodeSet.mem_toList, decide_eq_true_eq]
    exact fun hall => h hall.2
  simp only [splitRegion, hleast, if_neg hnot]

/-- Neither the decisions asked for nor the shortcut make a difference to the regions. -/
theorem sameSides_splitRegion (s s' : Recursive) (q q' : Query) (hq : q.strictEven = q'.strictEven)
    (a : Arena W) (depth : Nat) (region : NodeSet) (σ σ' : Strategy) :
    (s.splitRegion a q depth region σ).SameSides (s'.splitRegion a q' depth region σ') := by
  induction depth generalizing region σ σ' with
  | zero => exact ⟨rfl, rfl⟩
  | succ depth ih =>
    cases hleast : leastPriority? a.game region with
    | none =>
      simp only [splitRegion, hleast]
      exact ⟨rfl, rfl⟩
    | some least =>
      by_cases hsame : SameParity a.game region least
      · exact (s.sameSides_of_sameParity a q depth hleast hsame σ σ).trans
          (s'.sameSides_of_sameParity a q' depth hleast hsame σ' σ).symm
      · rw [s.splitRegion_of_not_sameParity a q depth hleast hsame,
          s'.splitRegion_of_not_sameParity a q' depth hleast hsame]
        exact sameSides_peel hq a ih _ _ _ _ _ _ _

/-! ## Whole games -/

/-- The regions of a valid game are those that are settled when all decisions are recorded. -/
theorem exists_settled_regions [Scalar W] (s : Recursive) (q : Query) (hv : g.Valid) :
    ∃ σ, Settled g ⟨q.strictEven, .both⟩ (.full g.size) (.blank g.size)
      ⟨(s.regions g q).even, (s.regions g q).odd, σ⟩ := by
  obtain ⟨heven, hodd⟩ := sameSides_splitRegion s s q ⟨q.strictEven, .both⟩ rfl g.arena (g.size + 1)
    (.full g.size) (.blank g.size) (.blank g.size)
  simp only [regions, heven, hodd]
  exact ⟨_, s.settled_full ⟨q.strictEven, .both⟩ hv⟩

/-- For a valid game, with chance or without, and for either strict player, one split of the nodes is
found with the shortcut and without it, whichever decisions are asked for. -/
theorem solve_sides_agree [Scalar W] (g : Game W) (hg : g.Valid) (strictEven : Bool) :
    ∃ even odd, (∀ v, v < g.size ↔ v ∈ even ∨ v ∈ odd) ∧ (∀ v ∈ even, v ∉ odd) ∧
      ∀ (s : Recursive) (request : Request),
        ∃ r, s.solve g ⟨strictEven, request⟩ = .ok r ∧ r.even = even ∧ r.odd = odd := by
  have hsettled := settled_full ⟨true⟩ ⟨strictEven, .both⟩ hg
  refine ⟨_, _, fun v => ?_, hsettled.disjoint .even (by simp), fun s request => ?_⟩
  · rw [← NodeSet.mem_full, hsettled.mem .even (by simp)]
  · obtain ⟨heven, hodd⟩ := sameSides_splitRegion s ⟨true⟩ ⟨strictEven, request⟩ ⟨strictEven, .both⟩ rfl
      g.arena (g.size + 1) (.full g.size) (.blank g.size) (.blank g.size)
    exact ⟨_, s.solve_eq_ok _ hg, heven, hodd⟩

end Recursive

/-- Chance leads from node 1 to node 2, below which all priorities are odd, though not equal. -/
def Game.decline : Game Rat :=
  ⟨#[⟨.even, 0, [⟨1, 1⟩]⟩, ⟨.stochastic, 2, [⟨0, 1 / 2⟩, ⟨2, 1 / 2⟩]⟩, ⟨.odd, 1, [⟨3, 1⟩]⟩,
    ⟨.even, 3, [⟨2, 1⟩, ⟨3, 1⟩]⟩]⟩

theorem Recursive.solve_decline_sides_agree :
    Game.decline.Valid ∧ Game.decline.owner 1 = .stochastic ∧
      ∃ even odd, ∀ s : Recursive, ∃ r, s.solve Game.decline ⟨false, .both⟩ = .ok r ∧
        r.even = even ∧ r.odd = odd := by
  have hg : Game.decline.Valid := Option.isNone_iff_eq_none.mp (by decide +kernel)
  obtain ⟨even, odd, -, -, h⟩ := Recursive.solve_sides_agree Game.decline hg false
  exact ⟨hg, rfl, even, odd, fun s => h s .both⟩

end OmegaGames
