import OmegaGames.Options
import OmegaGames.Proofs.Duality
import OmegaGames.Proofs.ImprovementDecisions

/-!
# Errors of strategy improvement

Strategy improvement hands three kinds of games to its qualitative solver: subgames, duals of games in
which Even follows a strategy, and restrictions to the edges that are consistent with the values. The
duals are always valid. A subgame has a dead end exactly if a node whose value is negligible has only
successors whose value is not, and a restriction exactly if the values leave some node no consistent edge;
values that have not come to rest may do either. No other defect is ever reported.
-/
namespace OmegaGames

open Relation

variable {W α β : Type} {g : Game W}

/-! ## Outcomes -/

/-- What is known of a computation that may fail: its result, when it reports a defect, and that it
refuses no chance and, with room, no game for its size. -/
structure Outcome (room bad : Prop) (good : α → Prop) (x : Except (SolveError W) α) : Prop where
  result : ∀ a, x = .ok a → good a
  defect : (∃ c, x = .error (.invalidGame c)) ↔ bad
  chance : ∀ v, x ≠ .error (.stochasticNode v)
  capacity : room → x ≠ .error .capacity

namespace Outcome

variable {room bad bad' : Prop} {good : α → Prop} {good' : β → Prop} {x : Except (SolveError W) α}

theorem ok {a : α} (ha : good a) (hbad : ¬ bad) : Outcome (W := W) room bad good (.ok a) where
  result b hb := by
    cases hb
    exact ha
  defect := ⟨fun ⟨_, h⟩ => (by cases h), fun h => absurd h hbad⟩
  chance _ h := by cases h
  capacity _ h := by cases h

theorem unsettled (hbad : ¬ bad) : Outcome (W := W) room bad good (.error .unsettled) where
  result _ h := by cases h
  defect := ⟨fun ⟨_, h⟩ => (by cases h), fun h => absurd h hbad⟩
  chance _ h := by cases h
  capacity _ h := by cases h

theorem congr (h : Outcome room bad good x) (hbad : bad ↔ bad') : Outcome room bad' good x :=
  { h with defect := h.defect.trans hbad }

/-- A defect shows up in the first computation or, after its result, in the second. -/
theorem bind {f : α → Except (SolveError W) β} (badAfter : α → Prop) (h : Outcome room bad good x)
    (hf : ∀ a, x = .ok a → good a → Outcome room (badAfter a) good' (f a)) :
    Outcome room (bad ∨ ∃ a, x = .ok a ∧ badAfter a) good' (x >>= f) := by
  cases x with
  | error e =>
    have hbind : (Except.error e >>= f : Except (SolveError W) β) = .error e := rfl
    rw [hbind]
    refine ⟨fun _ h => (by cases h), ?_, fun v hv => ?_, fun hr hv => ?_⟩
    · rw [← h.defect]
      constructor
      · rintro ⟨c, hc⟩
        cases hc
        exact Or.inl ⟨c, rfl⟩
      · rintro (⟨c, hc⟩ | ⟨_, ha, -⟩)
        · cases hc
          exact ⟨c, rfl⟩
        · cases ha
    · cases hv
      exact h.chance v rfl
    · cases hv
      exact h.capacity hr rfl
  | ok a =>
    have hgood := hf a rfl (h.result a rfl)
    have hbad : ¬ bad := fun hb => by
      obtain ⟨c, hc⟩ := h.defect.mpr hb
      cases hc
    refine hgood.congr ⟨fun hb => Or.inr ⟨a, rfl, hb⟩, ?_⟩
    rintro (hb | ⟨b, hb, hafter⟩)
    · exact absurd hb hbad
    · cases hb
      exact hafter

end Outcome

/-! ## Games made from a game -/

namespace Game

theorem derived_self (g : Game W) (k : Nat) : g.Derived k g :=
  .of_size_eq rfl (fun _ _ => id) fun _ _ => Nat.le_add_right _ _

theorem derived_subgame {R : NodeSet} (hR : R.range = g.size) (k : Nat) : (g.subgame R).game.Derived k g := by
  refine ⟨(g.subgame R).orig, fun i hi j hj hij => ?_, fun i hi => ?_⟩
  · obtain ⟨v, -, hv⟩ := exists_member (Finset.mem_range.mp hi)
    obtain ⟨w, -, hw⟩ := exists_member (Finset.mem_range.mp hj)
    rw [orig_subgame hv, orig_subgame hw] at hij
    have hlt : i < R.toList.length := (List.getElem?_eq_some_iff.mp hv).1
    exact (List.getElem?_inj hlt R.nodup_toList).mp (hv.trans (hij ▸ hw.symm))
  · obtain ⟨v, hv, hiv⟩ := exists_member hi
    rw [orig_subgame hiv, owner_subgame hiv, priority_subgame hiv]
    exact ⟨hR ▸ NodeSet.lt_range hv, id, Nat.le_add_right _ _⟩

theorem derived_restrict (positions : Nat → List Nat) (k : Nat) : (g.restrict positions).game.Derived k g := by
  refine .of_size_eq (size_restrict ..) (fun v hv hs => ?_) fun v hv => ?_
  · rwa [owner_restrict hv] at hs
  · rw [priority_restrict hv]
    exact Nat.le_add_right _ _

section Induced

variable [Scalar W] (hg : g.Valid) {σ : Strategy} {x : Player} (hσ : σ.Fits g)

include hg hσ

theorem derived_dual_induced : (g.induced σ x).game.dual.Derived 1 g := by
  have hsize : (g.induced σ x).game.size = g.size := by rw [induced, size_restrict]
  refine .of_size_eq (by rw [size_dual, hsize]) (fun v hv hs => ?_) fun v hv => ?_
  · rw [owner_dual, induced, owner_restrict hv] at hs
    exact Player.opponent_inj.mp hs
  · rw [(valid_induced hg hσ).priority_dual (hsize ▸ hv), induced, priority_restrict hv]

theorem valid_dual_induced (hp : ∀ v < g.size, g.priority v + 1 < infinitePriority) :
    (g.induced σ x).game.dual.Valid := by
  apply (valid_induced hg hσ).dual
  intro v hv
  rw [induced, size_restrict] at hv
  rw [induced, priority_restrict hv]
  exact hp v hv

end Induced

end Game

theorem Game.Derived.priority_lt {h : Game W} (hd : h.Derived 1 g)
    (hp : ∀ v < g.size, g.priority v + 1 < infinitePriority) :
    ∀ v < h.size, h.priority v < infinitePriority := by
  intro v hv
  obtain ⟨f, -, hf⟩ := hd
  obtain ⟨hu, -, hle⟩ := hf v hv
  exact hle.trans_lt (hp (f v) hu)

namespace QualitativeSolver

theorem Handles.derived {s : QualitativeSolver} {h : Game W} {k : Nat} (hs : s.Handles g) (hd : h.Derived k g) :
    s.Handles h := by
  cases s with
  | recursive s => trivial
  | gadget inner => trivial
  | lifting s =>
    intro v hv hv'
    obtain ⟨f, -, hf⟩ := hd
    obtain ⟨hu, howner, -⟩ := hf v hv
    exact hs (f v) hu (howner hv')

theorem HasRoom.derived [Scalar W] {s : QualitativeSolver} {h : Game W} {request : Request}
    (hroom : s.HasRoom g.dual ⟨true, request⟩) (hg : g.Valid) (hd : h.Derived 1 g) (request' : Request) :
    s.HasRoom h ⟨true, request'⟩ :=
  hroom.mono (hd.dual hg) request'

variable [Scalar W] (s : QualitativeSolver) (hg : g.Valid)
  (hp : ∀ v < g.size, g.priority v + 1 < infinitePriority) (hs : s.Handles g)

include hg hp hs in
/-- A solver reports a defect of a game made from a valid one exactly if it is invalid. -/
theorem outcome_solve {h : Game W} (hd : h.Derived 1 g) (request : Request) :
    Outcome (s.HasRoom g.dual ⟨true, .none⟩) (¬ h.Valid)
      (fun r => h.Valid ∧ (request = .evenOnly → r.HeldByEven h)) (s.solve h ⟨true, request⟩) := by
  have hprio := hd.priority_lt hp
  by_cases hvalid : h.Valid
  · obtain ⟨hok, herr⟩ := s.solve_strictEven_cases hprio hvalid (hs.derived hd) request
    by_cases hroom : s.HasRoom h ⟨true, request⟩
    · obtain ⟨r, hr⟩ := hok hroom
      rw [hr]
      refine .ok ⟨hvalid, ?_⟩ (not_not.mpr hvalid)
      rintro rfl
      exact s.heldByEven_of_solve hvalid hr
    · rw [herr hroom]
      exact ⟨fun _ h => (by cases h), ⟨fun ⟨_, h⟩ => (by cases h), fun h => absurd hvalid h⟩,
        fun _ h => (by cases h), fun hdual => absurd (hdual.derived hg hd request) hroom⟩
  · obtain ⟨c, hc⟩ := s.solve_of_not_valid hprio hvalid request
    rw [hc]
    exact ⟨fun _ h => (by cases h), iff_of_true ⟨c, rfl⟩ hvalid, fun _ h => (by cases h),
      fun _ h => (by cases h)⟩

end QualitativeSolver

namespace Improvement

variable [Scalar W]

open Scalar

/-- The solver behind the improvement has room for the dual of a game, and so for the game. -/
def HasRoom (s : Improvement W) (g : Game W) : Prop := s.qualitative.HasRoom g.dual ⟨true, .none⟩

theorem outcome_reachOutlook (s : Improvement W) (g : Game W) (target : NodeSet) (request : Request)
    (room : Prop) :
    Outcome room False (fun o => s.reach.solve g target request = .ok o)
      (s.reachOutlook g target request) := by
  rw [reachOutlook]
  split
  · rename_i o ho
    exact .ok ho not_false
  · exact .unsettled not_false

/-! ## The first strategy -/

/-- After a region has been decided, its hopeless part is decided anew. -/
def Retries (s : Improvement W) (g : Game W) (R R' : NodeSet) : Prop :=
  ∃ won reached, s.qualitative.solve (g.subgame R).game ⟨true, .evenOnly⟩ = .ok won ∧
    ¬ won.even.isEmpty ∧ s.reachOutlook (g.subgame R).game won.even .evenOnly = .ok reached ∧
    R' = s.hopeless g (g.subgame R) reached ∧ ¬ R'.isEmpty

section Initialise

variable {s : Improvement W} (hg : g.Valid) (hp : ∀ v < g.size, g.priority v + 1 < infinitePriority)
  (hs : s.qualitative.Handles g) (hone : lt one s.negligible = false)

theorem range_hopeless (sub : Subgame W) (reached : Outlook W) :
    (s.hopeless g sub reached).range = g.size := NodeSet.range_ofList _ _

theorem exists_of_mem_hopeless {R : NodeSet} {reached : Outlook W} {v : Nat}
    (h : v ∈ s.hopeless g (g.subgame R) reached) :
    ∃ k < (g.subgame R).game.size, R.toList[k]? = some v ∧ lt (reached.value k) s.negligible = true := by
  obtain ⟨k, hk, rfl⟩ := List.mem_map.mp (NodeSet.mem_of_mem_ofList h)
  obtain ⟨hk, hlt⟩ := List.mem_filter.mp hk
  have hk := List.mem_range.mp hk
  obtain ⟨v, -, hkv⟩ := Game.exists_member hk
  rw [Game.orig_subgame hkv]
  exact ⟨k, hk, hkv, hlt⟩

include hone in
/-- What is hopeless is less than the region: the nodes that Even wins in it have value one. -/
theorem size_hopeless_lt {R : NodeSet} {won : Regions} {reached : Outlook W}
    (hrange : won.even.range = (g.subgame R).game.size) (hwon : ¬ won.even.isEmpty)
    (hreach : s.reach.solve (g.subgame R).game won.even .evenOnly = .ok reached) :
    (s.hopeless g (g.subgame R) reached).size < R.size := by
  obtain ⟨k, hk⟩ := NodeSet.exists_mem_of_not_isEmpty hwon
  have hlt : k < (g.subgame R).game.size := hrange ▸ NodeSet.lt_range hk
  obtain ⟨w, hw, hkw⟩ := Game.exists_member hlt
  refine NodeSet.size_lt_of_subset (fun v hv => ?_) hw fun hmem => ?_
  · obtain ⟨j, hj, hjv, -⟩ := exists_of_mem_hopeless hv
    exact (NodeSet.mem_toList _ _).mp (List.mem_of_getElem? hjv)
  · obtain ⟨j, hj, hjw, hless⟩ := exists_of_mem_hopeless hmem
    obtain rfl : j = k := (List.getElem?_inj (List.getElem?_eq_some_iff.mp hjw).1 R.nodup_toList).mp
      (hjw.trans hkw.symm)
    rw [ValueIteration.value_of_mem_target hreach hlt hk, hone] at hless
    cases hless

def settleRegion (g : Game W) (R : NodeSet) (won : Regions) (reached : Outlook W) (σ : Strategy) :
    Strategy :=
  adopt (g.subgame R) (fun v => !won.even.contains v) reached.decision
    (adopt (g.subgame R) won.even.contains won.decision σ)

theorem revises_settleRegion {R : NodeSet} (hR : R.range = g.size) {won : Regions} {reached : Outlook W}
    (hwon : s.qualitative.solve (g.subgame R).game ⟨true, .evenOnly⟩ = .ok won)
    (hreached : s.reachOutlook (g.subgame R).game won.even .evenOnly = .ok reached) (σ : Strategy) :
    σ.Revises g .evenOnly (settleRegion g R won reached σ) :=
  (revises_adopt hR (supplies_won hwon) σ).trans (revises_adopt hR (supplies_reached hwon hreached _) _)

theorem initialise_succ (s : Improvement W) (g : Game W) (depth : Nat) (R : NodeSet) (σ : Strategy) :
    s.initialise g (depth + 1) R σ =
      s.qualitative.solve (g.subgame R).game ⟨true, .evenOnly⟩ >>= fun won =>
        if won.even.isEmpty then .ok (adopt (g.subgame R) (fun _ => true) (fun _ => some 0) σ)
        else s.reachOutlook (g.subgame R).game won.even .evenOnly >>= fun reached =>
          if (s.hopeless g (g.subgame R) reached).isEmpty then .ok (settleRegion g R won reached σ)
          else s.initialise g depth (s.hopeless g (g.subgame R) reached)
            (settleRegion g R won reached σ) := rfl

include hg hp hs hone in
/-- The search for a first strategy reports a defect exactly if it comes to a region with a dead end. -/
theorem outcome_initialise (depth : Nat) {R : NodeSet} (hR : R.range = g.size) (hsize : R.size < depth)
    {σ : Strategy} (hσ : σ.Fits g) :
    Outcome (s.HasRoom g) (∃ R', ReflTransGen (s.Retries g) R R' ∧ ¬ g.Total R') (Strategy.Fits · g)
      (s.initialise g depth R σ) := by
  induction depth generalizing R σ with
  | zero => exact absurd hsize (Nat.not_lt_zero _)
  | succ depth ih =>
    rw [initialise_succ]
    have hsolve := s.qualitative.outcome_solve hg hp hs (Game.derived_subgame hR 1) .evenOnly
    -- a later region has a dead end if Even wins somewhere and the rest leads to such a region
    refine (hsolve.bind (fun won => ¬ won.even.isEmpty ∧ ∃ reached,
      s.reachOutlook (g.subgame R).game won.even .evenOnly = .ok reached ∧
      ¬ (s.hopeless g (g.subgame R) reached).isEmpty ∧
      ∃ R', ReflTransGen (s.Retries g) (s.hopeless g (g.subgame R) reached) R' ∧ ¬ g.Total R')
      fun won hwon ⟨hvalid, hheld⟩ => ?_).congr ?_
    · have hheld := hheld rfl
      split
      · rename_i hempty
        exact .ok ((revises_adopt hR (supplies_first hwon) σ).fits hσ) fun hbad => hbad.1 hempty
      · rename_i hne
        have hreach := s.outcome_reachOutlook (g.subgame R).game won.even .evenOnly (s.HasRoom g)
        refine (hreach.bind _ fun reached hok hreached => ?_).congr
          ((or_iff_right not_false).trans (and_iff_right hne).symm)
        have hfits := (revises_settleRegion hR hwon hok σ).fits hσ
        split
        · rename_i hempty
          exact .ok hfits fun hbad => hbad.1 hempty
        · rename_i hrest
          have hlt := size_hopeless_lt hone hheld.range hne hreached
          exact (ih (range_hopeless _ _) (by omega) hfits).congr (and_iff_right hrest).symm
    · rw [Game.valid_subgame_iff hg hR]
      constructor
      · rintro (hdead | ⟨won, hwon, hne, reached, hreached, hrest, R', hR', hdead⟩)
        · exact ⟨R, .refl, hdead⟩
        · exact ⟨R', .head ⟨won, reached, hwon, hne, hreached, rfl, hrest⟩ hR', hdead⟩
      · rintro ⟨R', hR', hdead⟩
        rcases hR'.cases_head with rfl | ⟨_, ⟨won, reached, hwon, hne, hreached, rfl, hrest⟩, hR'⟩
        · exact Or.inl hdead
        · exact Or.inr ⟨won, hwon, hne, reached, hreached, hrest, R', hR', hdead⟩

end Initialise

/-! ## Improvement -/

/-- One improvement: to successors of better value or, if there are none, to what Even wins along consistent
edges. -/
def Improves (s : Improvement W) (g : Game W) (request : Request) (σ σ' : Strategy) : Prop :=
  ∃ o, s.evaluate g σ request.odd = .ok o ∧ (improveDirectly s g o.values σ = (σ', true) ∨
    ∃ σ₁, improveDirectly s g o.values σ = (σ₁, false) ∧ s.improveRegion g o.values σ₁ = .ok (σ', true))

def After (s : Improvement W) (g : Game W) (request : Request) : Nat → Strategy → Strategy → Prop
  | 0, σ, σ' => σ = σ'
  | n + 1, σ, σ' => ∃ τ, s.Improves g request σ τ ∧ s.After g request n τ σ'

/-- The values of a strategy that no better successor improves leave some node no consistent edge. -/
def Cornered (s : Improvement W) (g : Game W) (request : Request) (σ : Strategy) : Prop :=
  ∃ o, s.evaluate g σ request.odd = .ok o ∧ (improveDirectly s g o.values σ).2 = false ∧
    ∃ v < g.size, ∀ i < g.degree v, s.consistent g o.values v i = false

/-- Fewer than so many improvements lead to a strategy that is cornered. -/
def RunsIntoCorner (s : Improvement W) (g : Game W) (request : Request) (rounds : Nat) (σ : Strategy) : Prop :=
  ∃ n < rounds, ∃ τ, s.After g request n σ τ ∧ s.Cornered g request τ

theorem runsIntoCorner_succ {s : Improvement W} {request : Request} {rounds : Nat} {σ : Strategy} :
    s.RunsIntoCorner g request (rounds + 1) σ ↔
      s.Cornered g request σ ∨ ∃ σ', s.Improves g request σ σ' ∧ s.RunsIntoCorner g request rounds σ' := by
  constructor
  · rintro ⟨n, hn, τ, hafter, hcorner⟩
    cases n with
    | zero =>
      cases hafter
      exact Or.inl hcorner
    | succ n =>
      obtain ⟨σ', himproves, hafter⟩ := hafter
      exact Or.inr ⟨σ', himproves, n, by omega, τ, hafter, hcorner⟩
  · rintro (hcorner | ⟨σ', himproves, n, hn, τ, hafter, hcorner⟩)
    · exact ⟨0, by omega, σ, rfl, hcorner⟩
    · exact ⟨n + 1, by omega, τ, ⟨σ', himproves, hafter⟩, hcorner⟩

theorem revises_of_improves {s : Improvement W} {request : Request} {σ σ' : Strategy}
    (h : s.Improves g request σ σ') : σ.Revises g .evenOnly σ' := by
  obtain ⟨o, -, hdirect | ⟨σ₁, hdirect, hregion⟩⟩ := h
  · have hrevises := revises_improveDirectly (g := g) s o.values σ
    rwa [hdirect] at hrevises
  · have hrevises := revises_improveDirectly (g := g) s o.values σ
    rw [hdirect] at hrevises
    exact hrevises.trans (revises_improveRegion hregion)

theorem revises_of_after {s : Improvement W} {request : Request} {n : Nat} {σ σ' : Strategy}
    (h : s.After g request n σ σ') : σ.Revises g .evenOnly σ' := by
  induction n generalizing σ with
  | zero => exact h ▸ .refl
  | succ n ih =>
    obtain ⟨τ, himproves, hafter⟩ := h
    exact (revises_of_improves himproves).trans (ih hafter)

section Improve

variable {s : Improvement W} (hg : g.Valid) (hp : ∀ v < g.size, g.priority v + 1 < infinitePriority)
  (hs : s.qualitative.Handles g) {σ : Strategy}

include hg hp hs

theorem outcome_evaluate (hσ : σ.Fits g) (wantOdd : Bool) :
    Outcome (s.HasRoom g) False (fun _ => True) (s.evaluate g σ wantOdd) := by
  have hsolve := s.qualitative.outcome_solve hg hp hs (Game.derived_dual_induced (x := .even) hg hσ)
    (if wantOdd then .evenOnly else .none)
  have hvalid := Game.valid_dual_induced (x := .even) hg hσ hp
  refine (hsolve.bind (fun _ => False) fun won _ _ => ?_).congr ?_
  · have hreach := s.outcome_reachOutlook (g.induced σ .even).game.dual won.even
      (if wantOdd then .evenOnly else .none) (s.HasRoom g)
    refine (hreach.bind (fun _ => False) fun reached _ _ => ?_).congr (by simp)
    exact .ok trivial not_false
  · simp [hvalid]

/-- Improvement along consistent edges reports a defect exactly if some node has none. -/
theorem outcome_improveRegion (hσ : σ.Fits g) (values : Array W) :
    Outcome (s.HasRoom g) (∃ v < g.size, ∀ i < g.degree v, s.consistent g values v i = false)
      (fun p => p.1.Fits g) (s.improveRegion g values σ) := by
  have hsolve := s.qualitative.outcome_solve hg hp hs
    (Game.derived_restrict (fun v => (List.range (g.degree v)).filter (s.consistent g values v)) 1) .evenOnly
  have hvalid := Game.valid_keepEdges_iff hg (s.consistent g values)
  have hrun : Outcome (s.HasRoom g)
      (¬ (g.keepEdges (s.consistent g values)).game.Valid) (fun _ => True) (s.improveRegion g values σ) := by
    refine (hsolve.bind (fun _ => False) fun won _ _ => ?_).congr (by simp [Game.keepEdges])
    dsimp only
    split
    · exact .ok trivial not_false
    · exact .ok trivial not_false
  refine { hrun with
    result := fun p hok => (revises_improveRegion hok).fits hσ, defect := hrun.defect.trans ?_ }
  rw [hvalid]
  push Not
  simp

theorem outcome_improve (request : Request) (rounds : Nat) (hσ : σ.Fits g) :
    Outcome (s.HasRoom g) (s.RunsIntoCorner g request rounds σ) (fun _ => True)
      (s.improve g request rounds σ) := by
  induction rounds generalizing σ with
  | zero => exact .unsettled fun ⟨_, h, _⟩ => Nat.not_lt_zero _ h
  | succ rounds ih =>
    rw [improve]
    refine ((outcome_evaluate hg hp hs hσ request.odd).bind (fun o =>
      (∃ σ', improveDirectly s g o.values σ = (σ', true) ∧ s.RunsIntoCorner g request rounds σ') ∨
      ∃ σ₁, improveDirectly s g o.values σ = (σ₁, false) ∧
        ((∃ v < g.size, ∀ i < g.degree v, s.consistent g o.values v i = false) ∨
        ∃ σ', s.improveRegion g o.values σ₁ = .ok (σ', true) ∧ s.RunsIntoCorner g request rounds σ'))
      fun o _ _ => ?_).congr ?_
    · have hfits := (revises_improveDirectly s o.values σ).fits hσ
      cases hdirect : improveDirectly s g o.values σ with
      | mk σ₁ changed =>
        rw [hdirect] at hfits
        cases changed with
        | true => exact (ih hfits).congr (by simp)
        | false =>
          refine ((outcome_improveRegion hg hp hs hfits o.values).bind
            (fun p => p.2 = true ∧ s.RunsIntoCorner g request rounds p.1)
            fun p _ hp₁ => ?_).congr (by simp)
          obtain ⟨σ', changed⟩ := p
          cases changed with
          | true => exact (ih hp₁).congr (by simp)
          | false => exact .ok trivial (by simp)
    · rw [runsIntoCorner_succ, false_or]
      constructor
      · rintro ⟨o, ho, ⟨σ', hdirect, hrun⟩ | ⟨σ₁, hdirect, hdead | ⟨σ', hregion, hrun⟩⟩⟩
        · exact Or.inr ⟨σ', ⟨o, ho, Or.inl hdirect⟩, hrun⟩
        · exact Or.inl ⟨o, ho, by rw [hdirect], hdead⟩
        · exact Or.inr ⟨σ', ⟨o, ho, Or.inr ⟨σ₁, hdirect, hregion⟩⟩, hrun⟩
      · rintro (⟨o, ho, hsame, hdead⟩ | ⟨σ', ⟨o, ho, hdirect | ⟨σ₁, hdirect, hregion⟩⟩, hrun⟩)
        · exact ⟨o, ho, Or.inr ⟨_, Prod.ext rfl hsame, Or.inl hdead⟩⟩
        · exact ⟨o, ho, Or.inl ⟨σ', hdirect, hrun⟩⟩
        · exact ⟨o, ho, Or.inr ⟨σ₁, hdirect, Or.inr ⟨σ', hregion, hrun⟩⟩⟩

end Improve

/-! ## Solving -/

/-- Solving a valid game reports a defect exactly if a region that is decided anew has a dead end or if
improvement comes to a strategy that is cornered. -/
theorem outcome_solve {s : Improvement W} (hg : g.Valid)
    (hp : ∀ v < g.size, g.priority v + 1 < infinitePriority) (hs : s.qualitative.Handles g)
    (hone : lt one s.negligible = false) (request : Request) :
    Outcome (s.HasRoom g)
      ((∃ R, ReflTransGen (s.Retries g) (.full g.size) R ∧ ¬ g.Total R) ∨
        ∃ σ, s.initialise g (g.size + 1) (.full g.size) (.blank g.size) = .ok σ ∧
          s.RunsIntoCorner g request s.rounds σ)
      (fun _ => True) (s.solve g request) := by
  rw [solve, Game.checkValid_of_valid hg]
  refine (outcome_initialise hg hp hs hone _ (NodeSet.range_full _)
    (NodeSet.size_full_lt _) (.blank _)).bind _ fun σ _ hσ => ?_
  refine ((outcome_improve hg hp hs request s.rounds hσ).bind (fun _ => False)
    fun o _ _ => ?_).congr (by simp)
  exact .ok trivial not_false

end Improvement

namespace Options

theorem qualitative_quantitative (o : Options) : o.quantitative.qualitative = o.qualitative := by
  cases h : o.quantitativeSolver
  simp [quantitative]

theorem negligible_quantitative (o : Options) : o.quantitative.negligible = 1e-24 := by
  cases h : o.quantitativeSolver
  simp [quantitative]

theorem handles_qualitative {o : Options} (ho : o.solver ≠ .lifting) (g : Game W) :
    o.qualitative.Handles g := by
  cases h : o.solver with
  | lifting => exact absurd h ho
  | recursive => simp [qualitative, h, QualitativeSolver.Handles]
  | gadget => simp [qualitative, h, QualitativeSolver.Handles]

/-- On a valid game the dual of the game in which Even follows a strategy is valid for every strategy that
improvement comes to, chance is never refused, and a game is too large only for want of room. A defect is
reported exactly if the search for a first strategy comes to a region with a dead end, or if improvement
comes to a strategy whose values leave some node no consistent edge. -/
theorem quantitative_solve_defect_iff (o : Options) (ho : o.solver ≠ .lifting) (g : Game Float)
    (hg : g.Valid) (hp : ∀ v < g.size, g.priority v < Nat.pow 2 64 - 2) (request : Request) :
    (∀ σ, o.quantitative.initialise g (g.size + 1) (.full g.size) (.blank g.size) = .ok σ →
      ∀ n τ, o.quantitative.After g request n σ τ → (g.induced τ .even).game.dual.Valid) ∧
    (∀ v, o.quantitative.solve g request ≠ .error (.stochasticNode v)) ∧
    (o.quantitative.HasRoom g → o.quantitative.solve g request ≠ .error .capacity) ∧
    ((∃ c, o.quantitative.solve g request = .error (.invalidGame c)) ↔
      (∃ R, ReflTransGen (o.quantitative.Retries g) (.full g.size) R ∧ ¬ g.Total R) ∨
      ∃ σ, o.quantitative.initialise g (g.size + 1) (.full g.size) (.blank g.size) = .ok σ ∧
        o.quantitative.RunsIntoCorner g request o.quantitative.rounds σ) := by
  have hfinite : ∀ v < g.size, g.priority v + 1 < infinitePriority := fun v hv => priority_succ_lt (hp v hv)
  have hs : o.quantitative.qualitative.Handles g := by
    rw [qualitative_quantitative]
    exact handles_qualitative ho g
  have hone : Scalar.lt Scalar.one o.quantitative.negligible = false := by
    rw [negligible_quantitative]
    decide +kernel
  have hfirst := Improvement.outcome_initialise hg hfinite hs hone _ (NodeSet.range_full _)
    (NodeSet.size_full_lt _) (.blank g.size)
  have hsolve := Improvement.outcome_solve hg hfinite hs hone request
  refine ⟨fun σ hσ n τ hafter => ?_, hsolve.chance, hsolve.capacity, hsolve.defect⟩
  have hfits := (Improvement.revises_of_after hafter).fits (hfirst.result σ hσ)
  exact Game.valid_dual_induced hg hfits hfinite

end Options

/-- From node 0 Even can only go to node 1, which leads to node 2, where Even wins, with so small a
probability that value iteration comes to rest before node 0 has heard of it. -/
def Game.leak : Game Float :=
  ⟨#[⟨.even, 0, [⟨1, 1⟩]⟩, ⟨.stochastic, 0, [⟨2, 1e-11⟩, ⟨3, 0.99999999999⟩]⟩, ⟨.even, 0, [⟨2, 1⟩]⟩,
    ⟨.even, 1, [⟨3, 1⟩]⟩]⟩

namespace Game

theorem valid_leak : leak.Valid := Option.isNone_iff_eq_none.mp (by decide +kernel)

private def reportsDeadEnd : Except (SolveError Float) (Outlook Float) → Nat → Bool
  | .error (.invalidGame (.deadEnd v)), u => v = u
  | _, _ => false

private theorem eq_of_reportsDeadEnd {x : Except (SolveError Float) (Outlook Float)} {u : Nat}
    (h : reportsDeadEnd x u = true) : x = .error (.invalidGame (.deadEnd u)) := by
  unfold reportsDeadEnd at h
  split at h
  · rw [of_decide_eq_true h]
  · cases h

theorem solve_leak : ({} : Options).quantitative.solve leak .none = .error (.invalidGame (.deadEnd 0)) :=
  eq_of_reportsDeadEnd (by decide +kernel)

end Game

/-- The leak is valid, and improvement reports a dead end. -/
theorem Options.quantitative_solve_leak_ne_ok :
    Game.leak.Valid ∧ (∀ v < Game.leak.size, Game.leak.priority v < Nat.pow 2 64 - 2) ∧
      ({} : Options).solver ≠ .lifting ∧
      ({} : Options).quantitative.solve Game.leak .none = .error (.invalidGame (.deadEnd 0)) :=
  ⟨Game.valid_leak, by decide, by decide, Game.solve_leak⟩

/-- At the leak a region that is decided anew has a dead end, or improvement is cornered. -/
theorem Options.quantitative_solve_leak_defect_iff :
    ({} : Options).solver ≠ .lifting ∧ Game.leak.Valid ∧
      (∀ v < Game.leak.size, Game.leak.priority v < Nat.pow 2 64 - 2) ∧
      ((∃ R, ReflTransGen (({} : Options).quantitative.Retries Game.leak) (.full Game.leak.size) R ∧
        ¬ Game.leak.Total R) ∨
      ∃ σ, ({} : Options).quantitative.initialise Game.leak (Game.leak.size + 1) (.full Game.leak.size)
          (.blank Game.leak.size) = .ok σ ∧
        ({} : Options).quantitative.RunsIntoCorner Game.leak .none ({} : Options).quantitative.rounds σ) := by
  have hsolver : ({} : Options).solver ≠ .lifting := by decide
  have hp : ∀ v < Game.leak.size, Game.leak.priority v < Nat.pow 2 64 - 2 := by decide
  obtain ⟨-, -, -, hdefect⟩ := Options.quantitative_solve_defect_iff {} hsolver Game.leak Game.valid_leak hp .none
  exact ⟨hsolver, Game.valid_leak, hp, hdefect.mp ⟨_, Game.solve_leak⟩⟩

end OmegaGames
