import OmegaGames.Qualitative.Recursive
import OmegaGames.Proofs.Dominion
import OmegaGames.Proofs.Narrowing

/-!
# One round of the recursive solution

What the single operations of a round do: staying inside a region, recording an attraction, and taking
away what the opponent attracts. A player is treated exactly if it has to win with probability one or
if there is no chance at all: then what it attracts it also holds, and what is taken away from it
leaves a region that only itself can leave.
-/
namespace OmegaGames

variable {W : Type}

/-- The solver gives a player exactly what it holds. -/
def Query.Exact (q : Query) (g : Game W) (x : Player) : Prop :=
  q.needsAlmostSure x = true ∨ ∀ v < g.size, g.owner v ≠ .stochastic

def Game.Total (g : Game W) (region : NodeSet) : Prop := ∀ u ∈ region, ∃ t ∈ g.succs u, t ∈ region

theorem Game.Valid.total_full [Scalar W] {g : Game W} (hg : g.Valid) : g.Total (.full g.size) := by
  intro u hu
  obtain ⟨t, ht⟩ := List.exists_mem_of_ne_nil _ (hg.succs_ne_nil (NodeSet.mem_full.mp hu))
  exact ⟨t, ht, NodeSet.mem_full.mpr (hg.succ_lt ht)⟩

namespace Recursive

variable {g : Game W} {q : Query}

/-! ## Staying inside a region -/

section StayInside

variable (g) (request : Request) (region : NodeSet)

private def stayStep (σ : Strategy) (v : Nat) : Strategy :=
  if request.wants (g.owner v) then
    match (g.succs v).findIdx? region.contains with
    | some i => σ.set v i
    | none => σ
  else σ

private theorem stayInside_eq (vs : List Nat) (σ : Strategy) :
    stayInside g request region vs σ = vs.foldl (stayStep g request region) σ := rfl

private theorem size_stayStep (σ : Strategy) (v : Nat) : (stayStep g request region σ v).size = σ.size := by
  unfold stayStep
  split
  · split
    · exact Strategy.size_set _ _ _
    · rfl
  · rfl

private theorem get_stayStep_of_ne (σ : Strategy) {u v : Nat} (h : u ≠ v) :
    (stayStep g request region σ v).get u = σ.get u := by
  unfold stayStep
  split
  · split
    · rw [Strategy.get_set, if_neg fun hvu => h hvu.1.symm]
    · rfl
  · rfl

theorem size_stayInside (vs : List Nat) (σ : Strategy) :
    (stayInside g request region vs σ).size = σ.size := by
  rw [stayInside_eq]
  induction vs generalizing σ with
  | nil => rfl
  | cons v vs ih => rw [List.foldl_cons, ih, size_stayStep]

theorem get_stayInside_of_notMem (vs : List Nat) (σ : Strategy) {u : Nat} (h : u ∉ vs) :
    (stayInside g request region vs σ).get u = σ.get u := by
  rw [stayInside_eq]
  induction vs generalizing σ with
  | nil => rfl
  | cons v vs ih =>
    rw [List.mem_cons, not_or] at h
    rw [List.foldl_cons, ih _ h.2, get_stayStep_of_ne g request region σ h.1]

private theorem get_stayStep_self (σ : Strategy) {v : Nat} (hv : v < σ.size)
    (hw : request.wants (g.owner v) = true) (ht : ∃ t ∈ g.succs v, t ∈ region) :
    ∃ i t, (stayStep g request region σ v).get v = some i ∧ g.succ? v i = some t ∧ t ∈ region := by
  rw [stayStep, if_pos hw]
  cases hi : (g.succs v).findIdx? region.contains with
  | none =>
    obtain ⟨t, hst, htr⟩ := ht
    exact absurd htr (by simpa using List.findIdx?_eq_none_iff.mp hi t hst)
  | some i =>
    obtain ⟨hlt, hr, -⟩ := List.findIdx?_eq_some_iff_getElem.mp hi
    refine ⟨i, (g.succs v)[i], ?_, List.getElem?_eq_getElem hlt, hr⟩
    simp only
    rw [Strategy.get_set, if_pos ⟨rfl, hv⟩]

/-- The decisions made last stand, and there is one for every wanted node that can stay. -/
theorem get_stayInside_of_mem (vs : List Nat) (σ : Strategy) {v : Nat} (hmem : v ∈ vs)
    (hv : v < σ.size) (hw : request.wants (g.owner v) = true) (ht : ∃ t ∈ g.succs v, t ∈ region) :
    ∃ i t, (stayInside g request region vs σ).get v = some i ∧ g.succ? v i = some t ∧ t ∈ region := by
  induction vs generalizing σ with
  | nil => exact absurd hmem List.not_mem_nil
  | cons w vs ih =>
    have hs := size_stayStep g request region σ w
    by_cases hvs : v ∈ vs
    · exact ih (stayStep g request region σ w) hvs (hs ▸ hv)
    · obtain rfl : v = w := (List.mem_cons.mp hmem).resolve_right hvs
      have hkeep := get_stayInside_of_notMem g request region vs (stayStep g request region σ v) hvs
      rw [stayInside_eq] at hkeep
      rw [stayInside_eq, List.foldl_cons, hkeep]
      exact get_stayStep_self g request region σ hv hw ht

end StayInside

/-! ## What is taken away -/

/-- What is known of the nodes that `opponent` attracts to `target` inside `region`, with probability
one where it has to win so. -/
structure TakenAway (g : Game W) (q : Query) (target region : NodeSet) (opponent : Player)
    (away : NodeSet) : Prop where
  range : away.range = g.size
  inside : ∀ v ∈ away, v ∈ region
  seeded : ∀ v ∈ region, v ∈ target → v ∈ away
  covered : g.arena.strongAttractor target away opponent = away
  closed : q.Exact g opponent → ∀ u ∈ away, u ∉ target → g.owner u ≠ opponent →
    ∀ t ∈ g.succs u, t ∈ region → t ∈ away
  trap : q.Exact g opponent.opponent → ∀ u ∈ region, u ∉ away → g.owner u ≠ opponent.opponent →
    ∀ t ∈ g.succs u, t ∉ away
  total : g.Total region → ∀ u ∈ region, u ∉ away → ∃ t ∈ g.succs u, t ∈ region ∧ t ∉ away

private theorem needsAlmostSure_opponent {x : Player} (hx : x ≠ .stochastic) :
    q.needsAlmostSure x.opponent = !q.needsAlmostSure x := by
  cases x <;> simp [Query.needsAlmostSure, Player.opponent] at hx ⊢

private theorem owner_ne_stochastic_of_exact {x : Player} (h : q.Exact g x)
    (hq : q.needsAlmostSure x = false) {u t : Nat} (ht : t ∈ g.succs u) : g.owner u ≠ .stochastic := by
  rcases h with h | h
  · rw [hq] at h
    exact absurd h Bool.false_ne_true
  · exact h u (g.lt_size_of_mem_succs ht)

private theorem takenAway_weak {target region : NodeSet} {opponent : Player}
    (hp : opponent ≠ .stochastic) (hr : region.range = g.size)
    (hq : q.needsAlmostSure opponent = true) :
    TakenAway g q target region opponent (g.arena.weakAttractor target region opponent) := by
  have hk := g.kept_weakAttractor target hp hr
  refine {
    range := hk.range
    inside := hk.inside
    seeded := hk.seeded
    covered := g.strongAttractor_weakAttractor target hp hr
    closed := fun _ => hk.closed
    trap := ?_
    total := hk.total }
  intro hex u hu hua ho t ht
  have hq' : q.needsAlmostSure opponent.opponent = false := by
    rw [needsAlmostSure_opponent hp, hq]
    rfl
  have hs := owner_ne_stochastic_of_exact hex hq' ht
  refine hk.shut u hu hua ?_ t ht
  exact (Player.eq_or_eq_opponent hs hp).resolve_right ho

private theorem takenAway_strong {target region : NodeSet} {opponent : Player}
    (hp : opponent ≠ .stochastic) (hr : region.range = g.size)
    (hq : q.needsAlmostSure opponent = false) :
    TakenAway g q target region opponent (g.arena.strongAttractor target region opponent) := by
  have hidem := g.strongAttractor_idem target opponent hr
  obtain ⟨f, hf, h⟩ := g.attraction_strongAttractor target opponent hr
  rw [← hf] at hidem ⊢
  have hfree : ∀ v, v ∉ NodeSet.empty 0 := NodeSet.not_mem_empty 0
  refine {
    range := h.range
    inside := h.inside
    seeded := h.seeded
    covered := hidem
    closed := ?closed, trap := ?trap, total := ?total }
  case closed =>
    intro hex u hu hut ho t ht htr
    exact ((h.other u hu hut ho (owner_ne_stochastic_of_exact hex hq ht)).2 t ht htr).1
  case trap =>
    intro _ u hu hua ho t ht
    have hown := Player.eq_opponent_or_stochastic (Player.opponent_ne_stochastic hp) ho
    rw [Player.opponent_opponent] at hown
    exact h.avoids u hu hua (hfree u) hown t ht
  case total =>
    intro htot u hu hua
    exact h.exists_outside hu hua (hfree u) (htot u hu)

theorem takenAway {target region : NodeSet} {opponent : Player} (hp : opponent ≠ .stochastic)
    (hr : region.range = g.size) :
    TakenAway g q target region opponent (opponentAttractor g.arena q target region opponent) := by
  unfold opponentAttractor
  split
  · rename_i hq
    exact takenAway_weak hp hr hq
  · rename_i hq
    exact takenAway_strong hp hr (by simpa using hq)

/-- A strategy that is recorded on an attractor keeps all decisions elsewhere. -/
theorem get_recordIfWanted {target attractor : NodeSet} {player : Player} (request : Request)
    (ha : attractor.range = g.size) (σ : Strategy) {u : Nat} (hu : u ∉ attractor) :
    (recordIfWanted g.arena request target attractor player σ).get u = σ.get u := by
  unfold recordIfWanted
  split
  · have h : Attraction g target attractor (.empty 0) player σ _ := attraction_attract ha
    exact h.frame u (Or.inl fun hr => hu (h.inside u hr))
  · rfl

theorem size_recordIfWanted {target attractor : NodeSet} {player : Player} (request : Request)
    (ha : attractor.range = g.size) (σ : Strategy) :
    (recordIfWanted g.arena request target attractor player σ).size = σ.size := by
  unfold recordIfWanted
  split
  · have h : Attraction g target attractor (.empty 0) player σ _ := attraction_attract ha
    exact h.size_strategy
  · rfl

/-- What the opponent attracts to a region that it holds it holds as well. -/
theorem TakenAway.dominion {target region away : NodeSet} {opponent : Player}
    (h : TakenAway g q target region opponent away) (hex : q.Exact g opponent) {σ : Strategy}
    (hσ : σ.size = g.size) (hd : Dominion g opponent σ region.toSet target.toSet) :
    Dominion g opponent (g.arena.recordAttraction target away opponent σ) region.toSet away.toSet := by
  obtain ⟨f, hf, hstrat, ha⟩ := g.attraction_recordAttraction target opponent h.range h.covered σ
  rw [← hstrat]
  have hreach : ∀ v, v ∈ f.reached ↔ v ∈ away := fun v => by rw [hf]
  have hkeep : Dominion g opponent f.strategy region.toSet target.toSet :=
    hd.congr fun u hu => ha.frame u (Or.inr (Or.inl hu))
  refine hkeep.attract f.rank ?_ h.inside ?_ ?_ ?_ (h.closed hex)
  · intro v hv
    exact h.seeded v (hd.inside hv) hv
  · intro u hu hut ho
    obtain ⟨i, t, hi, htr, hlt, hs⟩ := ha.own u ((hreach u).mpr hu) hut ho
    have husize : u < σ.size := hσ ▸ h.range ▸ NodeSet.lt_range hu
    exact ⟨i, t, hs husize, hi, (hreach t).mp htr, hlt⟩
  · intro u hu hut ho
    obtain ⟨t, ht, htr, hlt⟩ := ha.chance u ((hreach u).mpr hu) hut ho
    exact ⟨t, ht, (hreach t).mp htr, hlt⟩
  · intro u hu hut ho hs t ht hta
    exact ((ha.other u ((hreach u).mpr hu) hut ho hs).2 t ht hta).2

/-! ## What stays with the player -/

private theorem attract_congr {target target' nodes blocked : NodeSet} {player : Player}
    (h : ∀ v ∈ nodes, v ∈ target ↔ v ∈ target') (σ : Strategy) :
    g.arena.attract target nodes blocked player σ = g.arena.attract target' nodes blocked player σ := by
  have hseed : g.arena.seed target nodes player σ = g.arena.seed target' nodes player σ := by
    have hboth : ∀ v, (nodes.contains v && target.contains v) =
        (nodes.contains v && target'.contains v) := by
      intro v
      rw [Bool.eq_iff_iff]
      simp only [Bool.and_eq_true]
      exact ⟨fun hv => ⟨hv.1, (h v hv.1).mp hv.2⟩, fun hv => ⟨hv.1, (h v hv.1).mpr hv.2⟩⟩
    have hinter : nodes.inter target = nodes.inter target' := by
      simp only [NodeSet.inter, NodeSet.filter, hboth]
    simp only [Arena.seed, hboth, hinter]
  rw [Arena.attract, Arena.attract, hseed]

private theorem strongAttractor_inter (target : NodeSet) (player : Player) {region : NodeSet}
    (hr : region.range = g.size) :
    g.arena.strongAttractor (target.inter region) (g.arena.strongAttractor target region player) player =
      g.arena.strongAttractor target region player := by
  obtain ⟨f, hf, h⟩ := g.attraction_strongAttractor target player hr
  have hsame : ∀ v ∈ g.arena.strongAttractor target region player,
      v ∈ target ↔ v ∈ target.inter region := by
    intro v hv
    rw [← hf] at hv
    exact ⟨fun ht => NodeSet.mem_inter.mpr ⟨ht, h.inside v hv⟩, fun ht => (NodeSet.mem_inter.mp ht).1⟩
  conv_lhs => rw [Arena.strongAttractor, ← attract_congr hsame]
  exact g.strongAttractor_idem target player hr

/-- The player holds what is left when the opponent wins nothing of what lies apart from the nodes of
least priority. -/
theorem dominion_of_near {target region near : NodeSet} {player : Player} {least : Nat}
    {request : Request} {σ : Strategy} (hr : region.range = g.size) (htot : g.Total region)
    (hσ : σ.size = g.size) (hw : request.wants player = true)
    (hl : Player.ofPriority least = player) (hleast : ∀ u ∈ region, least ≤ g.priority u)
    (htarget : ∀ u ∈ target, g.priority u = least)
    (hnear : near = g.arena.strongAttractor target region player)
    (hrest : Dominion g player σ (region.diff near).toSet (region.diff near).toSet) :
    Dominion g player
      (g.arena.recordAttraction (target.inter region) near player
        (stayInside g request region (target.inter region).toList σ)) region.toSet region.toSet := by
  obtain ⟨f₀, hf₀, h₀⟩ := g.attraction_strongAttractor target player hr
  have hcover := strongAttractor_inter target player hr
  rw [← hnear] at hf₀ hcover
  have hnr : near.range = g.size := hf₀ ▸ h₀.range
  have hin : ∀ v ∈ near, v ∈ region := fun v hv => h₀.inside v (hf₀ ▸ hv)
  let σ₁ := stayInside g request region (target.inter region).toList σ
  have hσ₁ : σ₁.size = g.size := (size_stayInside g request region _ σ).trans hσ
  obtain ⟨f, hf, hstrat, ha⟩ := g.attraction_recordAttraction (target.inter region) player hnr hcover σ₁
  rw [← hstrat]
  have hreach : ∀ v, v ∈ f.reached ↔ v ∈ near := fun v => by rw [hf]
  have hbn : ∀ v ∈ target.inter region, v ∈ near := fun v hv => by
    rw [← hf₀]
    exact h₀.seeded v (NodeSet.mem_inter.mp hv).2 (NodeSet.mem_inter.mp hv).1
  -- Outside of `near` no decision was touched.
  have hfar : ∀ u, u ∉ near → f.strategy.get u = σ.get u := by
    intro u hu
    rw [ha.frame u (Or.inl fun hur => hu ((hreach u).mp hur))]
    refine get_stayInside_of_notMem g request region _ σ fun hmem => hu (hbn u ?_)
    simpa using hmem
  have hdiff : (region.diff near).toSet = region.toSet \ near.toSet := by
    ext v
    simp
  rw [hdiff] at hrest
  refine Dominion.of_best (target.inter region).toSet near.toSet f.rank hl hleast ?_ hin
    (hrest.congr fun u hu => hfar u hu.2) ?_ ?_ ?_ ?_
  · intro u hu
    exact htarget u (NodeSet.mem_inter.mp hu).1
  · intro u hu ho
    have hur := (NodeSet.mem_inter.mp hu).2
    have husize : u < σ.size := hσ ▸ hr ▸ NodeSet.lt_range hur
    rw [ha.frame u (Or.inr (Or.inl hu))]
    refine get_stayInside_of_mem g request region _ σ ?_ husize (by rw [ho]; exact hw) (htot u hur)
    simpa using hu
  · intro u hu hub ho
    obtain ⟨i, t, hi, htr, hlt, hs⟩ := ha.own u ((hreach u).mpr hu) hub ho
    have husize : u < σ₁.size := hσ₁ ▸ hnr ▸ NodeSet.lt_range hu
    exact ⟨i, t, hs husize, hi, (hreach t).mp htr, hlt⟩
  · intro u hu hub ho
    obtain ⟨t, ht, htr, hlt⟩ := ha.chance u ((hreach u).mpr hu) hub ho
    exact ⟨t, ht, (hreach t).mp htr, hlt⟩
  · intro u hu hub ho hs t ht htr
    have hut : u ∉ target := fun hut => hub (NodeSet.mem_inter.mpr ⟨hut, hin u hu⟩)
    have htn : t ∈ near := by
      rw [← hf₀]
      exact ((h₀.other u (hf₀ ▸ hu) hut ho hs).2 t ht htr).1
    exact ⟨htn, ((ha.other u ((hreach u).mpr hu) hub ho hs).2 t ht htn).2⟩

end Recursive
end OmegaGames
