import OmegaGames.Proofs.ImprovementErrors

/-!
# Strategies that improvement returns

The first strategy decides on all nodes of Even, and improvements only revise it. Odd's answer is found in the
dual of the game in which Even follows the strategy; there Odd's nodes keep their edges, and the decisions on
them are taken over as they are. So a solution comes with decisions on the nodes of the wanted players, on no
others, and always for edges of the game.
-/
namespace OmegaGames

variable {W : Type} {g : Game W}

/-- Steps of which each changes one node, and that only if it is chosen. -/
theorem Strategy.foldl_range_eq {chosen : Nat → Prop} [DecidablePred chosen] {decision : Nat → Option Nat}
    {step : Strategy → Nat → Strategy} (hsize : ∀ τ v, (step τ v).size = τ.size)
    (hget : ∀ τ v w, (step τ v).get w = if v = w ∧ chosen w ∧ w < τ.size then decision w else τ.get w)
    (σ : Strategy) (n : Nat) : ((List.range n).foldl step σ).size = σ.size ∧ ∀ w,
      ((List.range n).foldl step σ).get w = if w < n ∧ chosen w ∧ w < σ.size then decision w else σ.get w := by
  induction n with
  | zero => exact ⟨rfl, fun w => by simp⟩
  | succ n ih =>
    rw [List.range_succ, List.foldl_append, List.foldl_cons, List.foldl_nil]
    refine ⟨(hsize _ _).trans ih.1, fun w => ?_⟩
    rw [hget, ih.1, ih.2]
    by_cases hw : n = w
    · subst hw
      by_cases hc : chosen n ∧ n < σ.size <;> simp [hc]
    · have hlt : w < n + 1 ↔ w < n := by omega
      simp only [hw, false_and, if_false, hlt]

theorem Game.degree_induced_le {σ : Strategy} {x : Player} {v : Nat} (hv : v < g.size) (ho : g.owner v ≠ x) :
    (g.induced σ x).game.degree v ≤ g.degree v := by
  rw [degree, induced, edges_restrict hv, edgesAt, openPositions_of_owner_ne ho]
  simpa using List.length_filterMap_le (fun i => (g.edges v)[i]?) (List.range (g.degree v))

namespace Improvement

/-! ## Changes for one player -/

theorem get_answer (odd : Option Strategy) (σ : Strategy) :
    (answer g odd σ).size = σ.size ∧ ∀ v, (answer g odd σ).get v =
      if v < g.size ∧ g.owner v = .odd ∧ v < σ.size then odd.bind (·.get v) else σ.get v := by
  refine Strategy.foldl_range_eq (fun τ v => ?_) (fun τ v w => ?_) σ g.size
  · split
    · split
      · exact Strategy.size_set _ _ _
      · exact Strategy.size_unset _ _
    · rfl
  · by_cases hvw : v = w
    · subst hvw
      by_cases ho : g.owner v = .odd
      · cases odd.bind (·.get v) with
        | none => simp [ho, Strategy.get_unset]
        | some i => simp [ho, Strategy.get_set]
      · simp [ho]
    · split
      · split <;> simp [Strategy.get_set, Strategy.get_unset, hvw]
      · simp [hvw]

theorem get_dropEven (σ : Strategy) : (dropEven g σ).size = σ.size ∧ ∀ v, (dropEven g σ).get v =
    if v < g.size ∧ g.owner v = .even ∧ v < σ.size then none else σ.get v := by
  refine Strategy.foldl_range_eq (fun τ v => ?_) (fun τ v w => ?_) σ g.size
  · split
    · exact Strategy.size_unset _ _
    · rfl
  · split
    · rename_i ho
      rw [Strategy.get_unset]
      by_cases hvw : v = w
      · subst hvw
        simp [ho]
      · simp [hvw]
    · rename_i ho
      rw [if_neg]
      rintro ⟨rfl, hown, -⟩
      exact ho hown

theorem answers_answer {σ odd : Strategy} (hσ : σ.Answers g .evenOnly) (hodd : odd.Answers g .oddOnly) :
    (answer g (some odd) σ).Answers g .both := by
  obtain ⟨hsize, hget⟩ := get_answer (g := g) (some odd) σ
  refine .of_get (hsize.trans hσ.size_eq) (fun v hv hw => ?_) fun v hv hw => ?_
  · rw [hget]
    cases ho : g.owner v with
    | even =>
      rw [if_neg (by simp)]
      exact hσ.exists_decision hv (by rw [ho]; rfl)
    | odd =>
      rw [if_pos ⟨hv, rfl, hσ.size_eq ▸ hv⟩]
      exact hodd.exists_decision hv (by rw [ho]; rfl)
    | stochastic =>
      rw [ho] at hw
      cases hw
  · rw [hget]
    cases ho : g.owner v with
    | even =>
      rw [ho] at hw
      cases hw
    | odd =>
      rw [ho] at hw
      cases hw
    | stochastic =>
      rw [if_neg (by simp)]
      exact hσ.get_eq_none hv (by rw [ho]; rfl)

theorem answers_dropEven {σ : Strategy} {odd : Bool} (hσ : σ.Answers g ⟨true, odd⟩) :
    (dropEven g σ).Answers g ⟨false, odd⟩ := by
  obtain ⟨hsize, hget⟩ := get_dropEven (g := g) σ
  refine .of_get (hsize.trans hσ.size_eq) (fun v hv hw => ?_) fun v hv hw => ?_
  · have ho : g.owner v ≠ .even := by
      intro ho
      rw [ho] at hw
      cases hw
    rw [hget, if_neg fun h => ho h.2.1]
    apply hσ.exists_decision hv
    cases hown : g.owner v with
    | even => exact absurd hown ho
    | odd => rwa [hown] at hw
    | stochastic => rwa [hown] at hw
  · rw [hget]
    cases ho : g.owner v with
    | even => rw [if_pos ⟨hv, rfl, hσ.size_eq ▸ hv⟩]
    | odd =>
      rw [if_neg (by simp)]
      exact hσ.get_eq_none hv (by rwa [ho] at hw ⊢)
    | stochastic =>
      rw [if_neg (by simp)]
      exact hσ.get_eq_none hv (by rw [ho]; rfl)

variable [Scalar W] {s : Improvement W} {σ σ' : Strategy}

/-! ## The first strategy -/

theorem isSome_get_settleRegion {R : NodeSet} (hR : R.range = g.size) {won : Regions} {reached : Outlook W}
    (hwon : s.qualitative.solve (g.subgame R).game ⟨true, .evenOnly⟩ = .ok won)
    (hreached : s.reachOutlook (g.subgame R).game won.even .evenOnly = .ok reached) (hσ : σ.size = g.size)
    {v : Nat} (hv : v ∈ R) (ho : g.owner v = .even) : ((settleRegion g R won reached σ).get v).isSome := by
  obtain ⟨k, -, hk⟩ := Game.exists_number (g := g) hv
  have hwins := supplies_won hwon
  have hrest := supplies_reached hwon hreached fun k => !won.even.contains k
  rw [settleRegion]
  cases hin : won.even.contains k with
  | true => exact (revises_adopt hR hrest _).isSome_get (isSome_get_adopt hR hwins hσ hk ho hin)
  | false =>
    have hsize := (revises_adopt hR hwins σ).size_eq.trans hσ
    exact isSome_get_adopt hR hrest hsize hk ho (by rw [hin, Bool.not_false])

/-- The search for a first strategy revises what it is given, and in its region no node of Even is left out. -/
theorem revises_initialise {depth : Nat} {R : NodeSet} (hR : R.range = g.size) (hσ : σ.size = g.size)
    (h : s.initialise g depth R σ = .ok σ') : σ.Revises g .evenOnly σ' ∧
      (0 < depth → ∀ v ∈ R, g.owner v = .even → (σ'.get v).isSome) := by
  induction depth generalizing R σ with
  | zero =>
    cases h
    exact ⟨.refl, fun hlt => absurd hlt (Nat.lt_irrefl 0)⟩
  | succ depth ih =>
    rw [initialise_succ] at h
    obtain ⟨won, hwon, h⟩ := exists_of_bind_eq_ok h
    split at h
    · cases h
      refine ⟨revises_adopt hR (supplies_first hwon) σ, fun _ v hv ho => ?_⟩
      obtain ⟨k, -, hk⟩ := Game.exists_number (g := g) hv
      exact isSome_get_adopt hR (supplies_first hwon) hσ hk ho rfl
    · obtain ⟨reached, hreached, h⟩ := exists_of_bind_eq_ok h
      have hsettle := revises_settleRegion hR hwon hreached σ
      have hdecided : ∀ v ∈ R, g.owner v = .even → ((settleRegion g R won reached σ).get v).isSome :=
        fun v hv ho => isSome_get_settleRegion hR hwon hreached hσ hv ho
      split at h
      · cases h
        exact ⟨hsettle, fun _ => hdecided⟩
      · -- the nodes that are decided anew already have a decision
        obtain ⟨hrest, -⟩ := ih (range_hopeless _ _) (hsettle.size_eq.trans hσ) h
        exact ⟨hsettle.trans hrest, fun _ v hv ho => hrest.isSome_get (hdecided v hv ho)⟩

theorem answers_initialise (h : s.initialise g (g.size + 1) (.full g.size) (.blank g.size) = .ok σ) :
    σ.Answers g .evenOnly := by
  obtain ⟨hrevises, hdecided⟩ := revises_initialise (NodeSet.range_full _) (Strategy.size_blank _) h
  refine .of_revises_blank hrevises fun v hv hw => ?_
  rw [Request.wants_evenOnly, decide_eq_true_eq] at hw
  exact hdecided (Nat.succ_pos _) v (NodeSet.mem_full.mpr hv) hw

/-! ## Odd's answer -/

omit [Scalar W] in
/-- What Odd decides in the dual game, where it is Even, names edges of the game. -/
theorem exists_decision_of_supplies_dual {decision : Nat → Option Nat} {chosen : Nat → Bool}
    (h : Supplies (g.induced σ .even).game.dual chosen decision) {v : Nat} (hv : v < g.size)
    (ho : g.owner v = .odd) (hc : chosen v = true) : ∃ i < g.degree v, decision v = some i := by
  have hlt : v < (g.induced σ .even).game.dual.size := by
    rwa [Game.size_dual, Game.induced, Game.size_restrict]
  have hdual : (g.induced σ .even).game.dual.owner v = .even := by
    rw [Game.owner_dual, Game.induced, Game.owner_restrict hv, ho]
    rfl
  obtain ⟨i, hi, hdecision⟩ := h v hlt hdual hc
  rw [Game.degree_dual] at hi
  exact ⟨i, hi.trans_le (Game.degree_induced_le hv (by simp [ho])), hdecision⟩

theorem answers_evaluate {o : Outlook W} (h : s.evaluate g σ true = .ok o) :
    ∃ τ, o.strategy = some τ ∧ τ.Answers g .oddOnly := by
  obtain ⟨won, hwon, h⟩ := exists_of_bind_eq_ok h
  obtain ⟨reached, hreached, h⟩ := exists_of_bind_eq_ok h
  cases h
  have hget := Strategy.get_ofFn g.size fun v => if g.owner v = .odd then
    (if won.even.contains v then won.decision v else reached.decision v) else none
  refine ⟨_, rfl, .of_get (by simp [Strategy.size]) (fun v hv hw => ?_) fun v hv hw => ?_⟩
  · rw [Request.wants_oddOnly, decide_eq_true_eq] at hw
    rw [hget, if_pos hv, if_pos hw]
    split
    · rename_i hin
      exact exists_decision_of_supplies_dual (supplies_won hwon) hv hw hin
    · exact exists_decision_of_supplies_dual (supplies_reached hwon hreached fun _ => true) hv hw rfl
  · rw [Request.wants_oddOnly, decide_eq_false_iff_not] at hw
    rw [hget, if_pos hv, if_neg hw]

/-! ## Solving -/

/-- Improvement ends after some improvements, with the strategy that they lead to and Odd's answer if it is
wanted. -/
theorem exists_after_of_improve {request : Request} {rounds : Nat} {o : Outlook W}
    (h : s.improve g request rounds σ = .ok o) : ∃ n τ τ' e, s.After g request n σ τ ∧
      τ.Revises g .evenOnly τ' ∧ s.evaluate g τ request.odd = .ok e ∧
      o.strategy = some (if request.odd then answer g e.strategy τ' else τ') := by
  induction rounds generalizing σ with
  | zero => cases h
  | succ rounds ih =>
    obtain ⟨e, he, h⟩ := exists_of_bind_eq_ok h
    have hdirect := revises_improveDirectly (g := g) s e.values σ
    split at h
    · rename_i σ₁ heq
      obtain ⟨n, τ, τ', e', hafter, hlast⟩ := ih h
      exact ⟨n + 1, τ, τ', e', ⟨σ₁, ⟨e, he, Or.inl heq⟩, hafter⟩, hlast⟩
    · rename_i σ₁ heq
      rw [heq] at hdirect
      obtain ⟨⟨σ₂, changed⟩, hregion, h⟩ := exists_of_bind_eq_ok h
      cases changed with
      | true =>
        obtain ⟨n, τ, τ', e', hafter, hlast⟩ := ih h
        exact ⟨n + 1, τ, τ', e', ⟨σ₂, ⟨e, he, Or.inr ⟨σ₁, heq, hregion⟩⟩, hafter⟩, hlast⟩
      | false =>
        cases h
        exact ⟨0, σ, σ₂, e, rfl, hdirect.trans (revises_improveRegion hregion), he, rfl⟩

theorem answers_improve {request : Request} {rounds : Nat} {o : Outlook W} (hσ : σ.Answers g .evenOnly)
    (h : s.improve g request rounds σ = .ok o) :
    ∃ τ, o.strategy = some τ ∧ τ.Answers g ⟨true, request.odd⟩ := by
  obtain ⟨n, τ, τ', e, hafter, hlast, he, ho⟩ := exists_after_of_improve h
  have hτ' := (hσ.revises (revises_of_after hafter)).revises hlast
  refine ⟨_, ho, ?_⟩
  cases hodd : request.odd with
  | false => exact hτ'
  | true =>
    rw [hodd] at he
    obtain ⟨odd, hsome, hanswer⟩ := answers_evaluate he
    rw [hsome]
    exact answers_answer hτ' hanswer

theorem exists_improve_of_solve {request : Request} {o : Outlook W} (h : s.solve g request = .ok o) :
    ∃ σ o', s.initialise g (g.size + 1) (.full g.size) (.blank g.size) = .ok σ ∧
      s.improve g request s.rounds σ = .ok o' ∧ o.strategy =
        if !request.any then none else if request.even then o'.strategy else o'.strategy.map (dropEven g) := by
  obtain ⟨-, -, h⟩ := exists_of_bind_eq_ok h
  obtain ⟨σ, hσ, h⟩ := exists_of_bind_eq_ok h
  obtain ⟨o', ho', h⟩ := exists_of_bind_eq_ok h
  cases h
  exact ⟨σ, o', hσ, ho', rfl⟩

theorem answers_solve {request : Request} {o : Outlook W} (h : s.solve g request = .ok o)
    (hany : request.any = true) : ∃ τ, o.strategy = some τ ∧ τ.Answers g request := by
  obtain ⟨σ, o', hσ, ho', hstrategy⟩ := exists_improve_of_solve h
  obtain ⟨τ, hτ, hanswers⟩ := answers_improve (answers_initialise hσ) ho'
  rw [hτ, hany] at hstrategy
  obtain ⟨even, odd⟩ := request
  cases even with
  | true => exact ⟨τ, hstrategy, hanswers⟩
  | false => exact ⟨dropEven g τ, hstrategy, answers_dropEven hanswers⟩

/-- A solution comes with a strategy exactly if decisions are wanted, and the strategy decides on the nodes of
the wanted players and on no others, always for an edge of the game. The first strategy decides on all nodes of
Even in this way, and so does the strategy after any number of improvements. -/
theorem solve_strategy_answers (s : Improvement W) (g : Game W) (request : Request) :
    (∀ o, s.solve g request = .ok o → (o.strategy = none ↔ request = .none) ∧
      ∀ σ, o.strategy = some σ → σ.Answers g request) ∧
    ∀ σ, s.initialise g (g.size + 1) (.full g.size) (.blank g.size) = .ok σ →
      σ.Answers g .evenOnly ∧ ∀ n τ, s.After g request n σ τ → τ.Answers g .evenOnly := by
  refine ⟨fun o h => ?_, fun σ hσ => ?_⟩
  · rw [← Request.any_eq_false_iff]
    cases hany : request.any with
    | false =>
      obtain ⟨_, _, -, -, hstrategy⟩ := exists_improve_of_solve h
      have hnone : o.strategy = none := by simpa [hany] using hstrategy
      simp [hnone]
    | true =>
      obtain ⟨τ, hτ, hanswers⟩ := answers_solve h hany
      simp [hτ, hanswers]
  · have hfirst := answers_initialise hσ
    exact ⟨hfirst, fun n τ hafter => hfirst.revises (revises_of_after hafter)⟩

end Improvement

/-- Node 0 leads to a chance of one quarter or to node 2, where Odd loses by staying and gives Even a chance of
one half by leaving. Since Odd might stay, Even at first reckons with the quarter only. -/
def Game.standoff : Game Float :=
  ⟨#[⟨.even, 1, [⟨1, 1⟩, ⟨2, 1⟩]⟩, ⟨.stochastic, 1, [⟨4, 0.25⟩, ⟨5, 0.75⟩]⟩, ⟨.odd, 0, [⟨2, 1⟩, ⟨3, 1⟩]⟩,
    ⟨.stochastic, 1, [⟨4, 0.5⟩, ⟨5, 0.5⟩]⟩, ⟨.even, 0, [⟨4, 1⟩]⟩, ⟨.odd, 1, [⟨5, 1⟩]⟩]⟩

/-- In the standoff the first strategy is improved once, and decisions of both players are returned. -/
theorem Improvement.solve_standoff_strategy_answers :
    (∃ o σ, ({} : Options).quantitative.solve Game.standoff .both = .ok o ∧ o.strategy = some σ ∧
      σ.Answers Game.standoff .both) ∧
    ∃ σ τ, ({} : Options).quantitative.initialise Game.standoff (Game.standoff.size + 1)
        (.full Game.standoff.size) (.blank Game.standoff.size) = .ok σ ∧ σ.Answers Game.standoff .evenOnly ∧
      ({} : Options).quantitative.After Game.standoff .both 1 σ τ ∧ σ ≠ τ ∧
      τ.Answers Game.standoff .evenOnly := by
  let first : Strategy := ⟨#[some 0, none, none, none, some 0, none]⟩
  let improved : Strategy := ⟨#[some 1, none, none, none, some 0, none]⟩
  let last : Strategy := ⟨#[some 1, none, some 1, none, some 0, some 0]⟩
  have hsolve : answers (({} : Options).quantitative.solve Game.standoff .both)
      (fun o => o.strategy = some last) = true := by decide +kernel
  have hinit : answers (({} : Options).quantitative.initialise Game.standoff (Game.standoff.size + 1)
      (.full Game.standoff.size) (.blank Game.standoff.size)) (fun σ => σ = first) = true := by decide +kernel
  have hevaluate : answers (({} : Options).quantitative.evaluate Game.standoff first true)
      (fun e => improveDirectly ({} : Options).quantitative Game.standoff e.values first = (improved, true)) =
      true := by decide +kernel
  obtain ⟨o, ho, hlast⟩ := exists_of_answers hsolve
  obtain ⟨σ, hσ, heq⟩ := exists_of_answers hinit
  obtain rfl : σ = first := of_decide_eq_true heq
  obtain ⟨e, he, hdirect⟩ := exists_of_answers hevaluate
  have hafter : ({} : Options).quantitative.After Game.standoff .both 1 first improved :=
    ⟨_, ⟨e, he, Or.inl (of_decide_eq_true hdirect)⟩, rfl⟩
  obtain ⟨hsolved, hrun⟩ := Improvement.solve_strategy_answers ({} : Options).quantitative Game.standoff .both
  obtain ⟨hfirst, hkept⟩ := hrun first hσ
  exact ⟨⟨o, last, ho, of_decide_eq_true hlast, (hsolved o ho).2 _ (of_decide_eq_true hlast)⟩,
    first, improved, hσ, hfirst, hafter, by decide, hkept 1 improved hafter⟩

end OmegaGames
