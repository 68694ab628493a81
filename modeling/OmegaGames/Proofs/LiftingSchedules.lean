import OmegaGames.Proofs.AlmostSure
import OmegaGames.Proofs.WinningStrategies

/-!
# Lifting in any order

Where lifting comes to rest does not depend on the order of the lifts. Wherever any lifts have led, one
more lift lowers no measure, although it does not look at the measure that it replaces, and no lift leads
above a table that meets its own demands. So whatever order comes to rest ends with the least fixed point.

`Sweeps` and `Works` are the two loops without a bound on their steps: they are left only where a sweep has
changed nothing, or where no node waits. Each of them ends, under every setting with the same table.
-/
namespace OmegaGames

namespace Measure

/-- Equal, or below in the order of the counts, where the greatest measure is above all counts. -/
def Le (a b : Measure) : Prop := a = b ∨ lt a b = true

theorem le_iff_rank_le {levels : List Level} {a b : Measure} (ha : a.Fits levels) (hb : b.Fits levels) :
    a.Le b ↔ a.rank levels ≤ b.rank levels := by
  rw [Le, lt_iff_rank_lt ha hb, le_iff_eq_or_lt]
  exact or_congr_left ⟨congrArg _, eq_of_rank_eq ha hb⟩

end Measure

namespace Lifting

open OmegaGames.Level OmegaGames.Measure

variable {W : Type} {g : Game W} {levels : List Level} {t t' : Table}

/-! ## One lift after another -/

def liftEach (g : Game W) (levels : List Level) (t : Table) (vs : List Nat) : Table :=
  vs.foldl (fun t v => (lift g levels t v).1) t

def after (g : Game W) (vs : List Nat) : Table := liftEach g (ofGame g) (initial g (ofGame g)) vs

theorem liftEach_cons (v : Nat) (vs : List Nat) :
    liftEach g levels t (v :: vs) = liftEach g levels (lift g levels t v).1 vs := rfl

theorem liftEach_append (vs ws : List Nat) :
    liftEach g levels t (vs ++ ws) = liftEach g levels (liftEach g levels t vs) ws :=
  List.foldl_append

theorem lift_of_size_le {v : Nat} (hv : g.size ≤ v) : lift g levels t v = (t, false) := by
  have hnil : g.succs v = [] := List.eq_nil_iff_forall_not_mem.mpr fun u hu => by
    have hlt := g.lt_size_of_mem_succs hu
    omega
  simp [lift, lifted, Game.succ?, hnil]

theorem Stable.lift_eq (h : Stable g levels t) (v : Nat) : lift g levels t v = (t, false) := by
  by_cases hv : v < g.size
  · simp [lift, h v hv]
  · exact lift_of_size_le (Nat.le_of_not_lt hv)

section Valid

variable [Scalar W] (hg : g.Valid) (hs : Increasing levels)

include hg hs

/-- A lift of any node keeps what every table on the way satisfies, and lowers no measure. -/
theorem Rising.step (h : Rising g levels t) (v : Nat) :
    Rising g levels (lift g levels t v).1 ∧
      ∀ u, (measureAt t u).Le (measureAt (lift g levels t v).1 u) := by
  by_cases hv : v < g.size
  · rcases lift_cases hg hs h hv with ⟨hsame, -⟩ | ⟨t', hlift, h', -, hat, hne⟩
    · rw [hsame]
      exact ⟨h, fun u => Or.inl rfl⟩
    · rw [hlift]
      refine ⟨h', fun u => ?_⟩
      by_cases hu : u = v
      · rw [le_iff_rank_le (h.fits u) (h'.fits u), hu, hat]
        exact h.rising v hv
      · exact Or.inl (hne u hu).symm
  · rw [lift_of_size_le (Nat.le_of_not_lt hv)]
    exact ⟨h, fun u => Or.inl rfl⟩

theorem Rising.liftEach (h : Rising g levels t) (vs : List Nat) :
    Rising g levels (liftEach g levels t vs) := by
  induction vs generalizing t with
  | nil => exact h
  | cons v vs ih => exact ih (h.step hg hs v).1

end Valid

theorem rising_after [Scalar W] (hg : g.Valid) (vs : List Nat) : Rising g (ofGame g) (after g vs) :=
  (rising_initial g _).liftEach hg (increasing_ofGame g) vs

/-! ## The least fixed point -/

/-- No lift changes the table, and no measure of it is above that of a table that meets its own demands, as
every other fixed point does. -/
structure LeastFixedPoint (g : Game W) (levels : List Level) (t : Table) : Prop where
  size : t.size = g.size
  fits : Fitting levels t
  stable : Stable g levels t
  least : ∀ t', Fitting levels t' → (∀ v < g.size, (lifted g levels t' v).Le (measureAt t' v)) →
    ∀ v < g.size, (measureAt t v).Le (measureAt t' v)

theorem LeastFixedPoint.unique (h : LeastFixedPoint g levels t) (h' : LeastFixedPoint g levels t') :
    t = t' := by
  have hat : ∀ v < g.size, measureAt t v = measureAt t' v := by
    intro v hv
    have hle := h.least t' h'.fits (fun u hu => Or.inl (h'.stable u hu)) v hv
    have hge := h'.least t h.fits (fun u hu => Or.inl (h.stable u hu)) v hv
    rw [le_iff_rank_le (h.fits v) (h'.fits v)] at hle
    rw [le_iff_rank_le (h'.fits v) (h.fits v)] at hge
    exact eq_of_rank_eq (h.fits v) (h'.fits v) (le_antisymm hle hge)
  refine Array.ext (h.size.trans h'.size.symm) fun v hv hv' => ?_
  have heq := hat v (h.size ▸ hv)
  simpa [measureAt, Array.getD, hv, hv'] using heq

theorem Rising.leastFixedPoint [Scalar W] (hg : g.Valid) (hs : Increasing levels) (h : Rising g levels t)
    (hst : Stable g levels t) : LeastFixedPoint g levels t where
  size := h.size
  fits := h.fits
  stable := hst
  least t' hfit hmeets v hv := by
    rw [le_iff_rank_le (h.fits v) (hfit v)]
    refine h.below (rankAt levels t') (fun u hu => ?_) v hv
    rw [← rank_lifted_le_iff hs hfit (hg.succs_ne_nil hu)]
    exact (le_iff_rank_le (fits_lifted hs hfit u) (hfit u)).mp (hmeets u hu)

/-! ## Loops without a bound on their steps -/

/-- Sweeps over all nodes until a sweep changes nothing, lifting the listed nodes on the way. -/
inductive Sweeps (g : Game W) (levels : List Level) : Table → List Nat → Table → Prop
  | rest {t t' : Table} (hsame : sweep g levels t = (t', false)) :
      Sweeps g levels t (List.range g.size) t'
  | again {t t' t'' : Table} {vs : List Nat} (hchanged : sweep g levels t = (t', true))
      (hrest : Sweeps g levels t' vs t'') : Sweeps g levels t (List.range g.size ++ vs) t''

/-- Takes nodes off the list until none waits, lifting the listed nodes on the way. -/
inductive Works (a : Arena W) (levels : List Level) (order : LiftOrder) :
    Agenda → Table → List Nat → Table → Prop
  | done {agenda : Agenda} {t : Table} (hnone : agenda.queue = []) : Works a levels order agenda t [] t
  | same {agenda : Agenda} {t t' t'' : Table} {v : Nat} {rest vs : List Nat}
      (hnext : agenda.queue = v :: rest) (hlift : lift a.game levels t v = (t', false))
      (hrest : Works a levels order ⟨rest, agenda.queued.erase v⟩ t' vs t'') :
      Works a levels order agenda t (v :: vs) t''
  | changed {agenda : Agenda} {t t' t'' : Table} {v : Nat} {rest vs : List Nat}
      (hnext : agenda.queue = v :: rest) (hlift : lift a.game levels t v = (t', true))
      (hrest : Works a levels order
        ((a.preds.of v).foldl (fun b e => b.add order e.1) ⟨rest, agenda.queued.erase v⟩) t' vs t'') :
      Works a levels order agenda t (v :: vs) t''

/-- Under its settings, lifting goes from the least measures through lifts of the listed nodes to its end. -/
def Runs (s : Lifting) (g : Game W) (vs : List Nat) (t : Table) : Prop :=
  match s.method with
  | .all => Sweeps g (ofGame g) (initial g (ofGame g)) vs t
  | .successorChanged =>
    Works g.arena (ofGame g) s.order (.initial s.order g.size) (initial g (ofGame g)) vs t

theorem fst_foldl_sweepStep (vs : List Nat) (t : Table) (changed : Bool) :
    (vs.foldl (sweepStep g levels) (t, changed)).1 = liftEach g levels t vs := by
  induction vs generalizing t changed with
  | nil => rfl
  | cons v vs ih => exact ih _ _

theorem fst_sweep (t : Table) : (sweep g levels t).1 = liftEach g levels t (List.range g.size) :=
  fst_foldl_sweepStep _ t false

theorem Stable.sweep_eq (h : Stable g levels t) : sweep g levels t = (t, false) := by
  have hfold : ∀ vs : List Nat, vs.foldl (sweepStep g levels) (t, false) = (t, false) := by
    intro vs
    induction vs with
    | nil => rfl
    | cons v vs ih => rw [List.foldl_cons, sweepStep, h.lift_eq, Bool.false_or, ih]
  exact hfold _

theorem Sweeps.eq_liftEach {vs : List Nat} (h : Sweeps g levels t vs t') :
    t' = liftEach g levels t vs := by
  induction h with
  | rest hsame => rw [← fst_sweep, hsame]
  | again hchanged _ ih => rw [liftEach_append, ← fst_sweep, hchanged, ih]

theorem Works.eq_liftEach {order : LiftOrder} {agenda : Agenda} {vs : List Nat}
    (h : Works g.arena levels order agenda t vs t') : t' = liftEach g levels t vs := by
  induction h with
  | done => rfl
  | same _ hlift _ ih =>
    rw [ih, liftEach_cons]
    exact congrArg (liftEach g levels · _) (congrArg Prod.fst hlift).symm
  | changed _ hlift _ ih =>
    rw [ih, liftEach_cons]
    exact congrArg (liftEach g levels · _) (congrArg Prod.fst hlift).symm

theorem Sweeps.unique {vs vs' : List Nat} {t'' : Table} (h : Sweeps g levels t vs t')
    (h' : Sweeps g levels t vs' t'') : vs' = vs ∧ t'' = t' := by
  induction h generalizing vs' t'' with
  | rest hsame =>
    cases h' with
    | rest hsame' => exact ⟨rfl, (Prod.ext_iff.mp (hsame'.symm.trans hsame)).1⟩
    | again hchanged => cases hsame.symm.trans hchanged
  | again hchanged _ ih =>
    cases h' with
    | rest hsame => cases hsame.symm.trans hchanged
    | again hchanged' hrest =>
      cases hchanged.symm.trans hchanged'
      obtain ⟨rfl, rfl⟩ := ih hrest
      exact ⟨rfl, rfl⟩

theorem Works.unique {a : Arena W} {order : LiftOrder} {agenda : Agenda} {vs vs' : List Nat} {t'' : Table}
    (h : Works a levels order agenda t vs t') (h' : Works a levels order agenda t vs' t'') :
    vs' = vs ∧ t'' = t' := by
  induction h generalizing vs' t'' with
  | done hnone =>
    cases h' with
    | done => exact ⟨rfl, rfl⟩
    | same hnext => cases hnone.symm.trans hnext
    | changed hnext => cases hnone.symm.trans hnext
  | same hnext hlift _ ih =>
    cases h' with
    | done hnone => cases hnone.symm.trans hnext
    | same hnext' hlift' hrest =>
      cases hnext.symm.trans hnext'
      cases hlift.symm.trans hlift'
      obtain ⟨rfl, rfl⟩ := ih hrest
      exact ⟨rfl, rfl⟩
    | changed hnext' hlift' =>
      cases hnext.symm.trans hnext'
      cases hlift.symm.trans hlift'
  | changed hnext hlift _ ih =>
    cases h' with
    | done hnone => cases hnone.symm.trans hnext
    | same hnext' hlift' =>
      cases hnext.symm.trans hnext'
      cases hlift.symm.trans hlift'
    | changed hnext' hlift' hrest =>
      cases hnext.symm.trans hnext'
      cases hlift.symm.trans hlift'
      obtain ⟨rfl, rfl⟩ := ih hrest
      exact ⟨rfl, rfl⟩

/-! ## The bounds are never in the way -/

/-- If the sweeps have come to rest when they are cut off, the loop ends there too. -/
theorem exists_sweeps (rounds : Nat) (h : Stable g levels (sweepAll g levels rounds t)) :
    ∃ vs, Sweeps g levels t vs (sweepAll g levels rounds t) := by
  induction rounds generalizing t with
  | zero => exact ⟨_, .rest h.sweep_eq⟩
  | succ rounds ih =>
    rw [sweepAll] at h ⊢
    split
    · rename_i t' hchanged
      rw [hchanged] at h
      obtain ⟨vs, hvs⟩ := ih h
      exact ⟨_, .again hchanged hvs⟩
    · rename_i hsame
      exact ⟨_, .rest hsame⟩

/-- From a table at rest the waiting nodes are taken off one by one. -/
theorem Stable.works (h : Stable g levels t) (order : LiftOrder) (queue : List Nat) (queued : NodeSet) :
    Works g.arena levels order ⟨queue, queued⟩ t queue t := by
  induction queue generalizing queued with
  | nil => exact .done rfl
  | cons v rest ih => exact .same rfl (h.lift_eq v) (ih _)

theorem exists_works (order : LiftOrder) (steps : Nat) {agenda : Agenda}
    (h : Stable g levels (work g.arena levels order steps agenda t)) :
    ∃ vs, Works g.arena levels order agenda t vs (work g.arena levels order steps agenda t) := by
  induction steps generalizing agenda t with
  | zero => exact ⟨_, h.works order agenda.queue agenda.queued⟩
  | succ steps ih =>
    cases hnext : agenda.queue with
    | nil =>
      simp only [work, hnext]
      exact ⟨_, .done hnext⟩
    | cons v rest =>
      rcases hlift : lift g levels t v with ⟨t', _ | _⟩
      · simp only [work, hnext, Game.arena, hlift] at h ⊢
        obtain ⟨vs, hvs⟩ := ih h
        exact ⟨_, .same hnext hlift hvs⟩
      · simp only [work, hnext, Game.arena, hlift] at h ⊢
        obtain ⟨vs, hvs⟩ := ih h
        exact ⟨_, .changed hnext hlift hvs⟩

theorem Runs.unique {s : Lifting} {vs vs' : List Nat} (h : s.Runs g vs t) (h' : s.Runs g vs' t') :
    vs' = vs ∧ t' = t := by
  unfold Runs at h h'
  split at h
  · rename_i hm
    rw [hm] at h'
    exact Sweeps.unique h h'
  · rename_i hm
    rw [hm] at h'
    exact Works.unique h h'

theorem Runs.eq_after {s : Lifting} {vs : List Nat} (h : s.Runs g vs t) : t = after g vs := by
  unfold Runs at h
  split at h
  · exact h.eq_liftEach
  · exact h.eq_liftEach

/-- The loops end with the measures that are found within the bounds. -/
theorem exists_runs [Scalar W] (hg : g.Valid) (s : Lifting) : ∃ vs, s.Runs g vs (s.measures g) := by
  obtain ⟨-, hst⟩ := measures_stable hg s
  cases hm : s.method with
  | all =>
    simp only [measures, Runs, hm] at hst ⊢
    exact exists_sweeps _ hst
  | successorChanged =>
    simp only [measures, Runs, hm] at hst ⊢
    exact exists_works _ _ hst

theorem leastFixedPoint_measures [Scalar W] (hg : g.Valid) (s : Lifting) :
    LeastFixedPoint g (ofGame g) (s.measures g) := by
  obtain ⟨hr, hst⟩ := measures_stable hg s
  exact hr.leastFixedPoint hg (increasing_ofGame g) hst

/-- On every node of a player whose decisions are asked for, the decision is the best position. -/
theorem exists_strategy_regions (s : Lifting) (g : Game W) {request : Request} (h : request.any = true) :
    ∃ σ, (s.regions g request).strategy = some σ ∧ ∀ v < g.size, σ.get v =
      if request.wants (g.owner v) then some (bestPosition g (s.measures g) v) else none := by
  refine ⟨_, if_pos h, fun v hv => ?_⟩
  rw [Strategy.get_ofFn g.size fun v =>
    if request.wants (g.owner v) then some (bestPosition g (s.measures g) v) else none, if_pos hv]

theorem regions_cases (s : Lifting) (g : Game W) (request : Request) {v : Nat} (hv : v < g.size) :
    (v ∈ (s.regions g request).odd ↔ (measureAt (s.measures g) v).isTop = true) ∧
      (v ∈ (s.regions g request).even ↔ v ∉ (s.regions g request).odd) ∧
      (s.regions g request).decision v =
        if request.wants (g.owner v) then some (bestPosition g (s.measures g) v) else none := by
  refine ⟨by simp [regions, hv], by simp [regions, hv], ?_⟩
  by_cases hany : request.any = true
  · obtain ⟨σ, hσ, hget⟩ := s.exists_strategy_regions g hany
    rw [Regions.decision, hσ, Option.bind_some, hget v hv]
  · have hnone : (s.regions g request).strategy = none := if_neg hany
    have hwants : request.wants (g.owner v) = false := by
      cases hown : g.owner v <;> simp_all [Request.any, Request.wants]
    rw [Regions.decision, hnone, hwants]
    rfl

theorem regions_congr {s s' : Lifting} (h : s.measures g = s'.measures g) (request : Request) :
    s.regions g request = s'.regions g request := by
  simp only [regions, h]

/-- On a valid game without chance, lifts in any order keep every measure within its bounds and lower none.
Every order that comes to rest, and so the loop of each setting, ends with the least fixed point of lifting,
and all settings give the same regions and decisions, read off there. If there is no room for the table,
all of them refuse the game. -/
theorem schedules_agree [Scalar W] (g : Game W) (hg : g.Valid)
    (hno : ∀ v < g.size, g.owner v ≠ .stochastic) :
    (∀ vs v u, (measureAt (after g vs) u).Fits (ofGame g) ∧
      (measureAt (after g vs) u).Le (measureAt (lift g (ofGame g) (after g vs) v).1 u)) ∧
    ∃ t, LeastFixedPoint g (ofGame g) t ∧
      (∀ vs, Stable g (ofGame g) (after g vs) → after g vs = t) ∧
      (∀ s : Lifting, s.measures g = t ∧ ∃ vs, s.Runs g vs t ∧ t = after g vs ∧
        ∀ vs' t', s.Runs g vs' t' → vs' = vs ∧ t' = t) ∧
      ∀ q, (HasRoom g → ∃ r, (∀ s : Lifting, s.solve g q = .ok r) ∧ ∀ v < g.size,
          (v ∈ r.odd ↔ (measureAt t v).isTop = true) ∧ (v ∈ r.even ↔ v ∉ r.odd) ∧
            r.decision v = if q.request.wants (g.owner v) then some (bestPosition g t v) else none) ∧
        (¬ HasRoom g → ∀ s : Lifting, s.solve g q = .error .capacity) := by
  have hs := increasing_ofGame g
  have hone : ∀ s : Lifting, s.measures g = measures ⟨.all, .fifo⟩ g := fun s =>
    (leastFixedPoint_measures hg s).unique (leastFixedPoint_measures hg ⟨.all, .fifo⟩)
  refine ⟨fun vs v u => ⟨(rising_after hg vs).fits u, ((rising_after hg vs).step hg hs v).2 u⟩,
    measures ⟨.all, .fifo⟩ g, leastFixedPoint_measures hg _, fun vs hst => ?_, fun s => ⟨hone s, ?_⟩,
    fun q => ⟨fun hroom => ?_, fun hroom s => (s.solve_cases hg hno q).2 hroom⟩⟩
  · exact ((rising_after hg vs).leastFixedPoint hg hs hst).unique (leastFixedPoint_measures hg _)
  · obtain ⟨vs, hrun⟩ := exists_runs hg s
    rw [hone s] at hrun
    exact ⟨vs, hrun, hrun.eq_after, fun _ _ hrun' => hrun.unique hrun'⟩
  · refine ⟨regions ⟨.all, .fifo⟩ g q.request, fun s => ?_, fun v hv => regions_cases _ g _ hv⟩
    rw [(s.solve_cases hg hno q).1 hroom, regions_congr (hone s)]

/-- At the fork all settings end with the same measures and give the same answer. -/
theorem schedules_fork_agree :
    (Game.fork Rat).Valid ∧ (∀ v < (Game.fork Rat).size, (Game.fork Rat).owner v ≠ .stochastic) ∧
      ∃ t, LeastFixedPoint (Game.fork Rat) (ofGame (Game.fork Rat)) t ∧
        (∀ s : Lifting, s.measures (Game.fork Rat) = t ∧ ∃ vs, s.Runs (Game.fork Rat) vs t) ∧
        ∀ q, ∃ r, ∀ s : Lifting, s.solve (Game.fork Rat) q = .ok r := by
  have hg : (Game.fork Rat).Valid := rfl
  have hno : ∀ v < (Game.fork Rat).size, (Game.fork Rat).owner v ≠ .stochastic := by decide
  have hroom : HasRoom (Game.fork Rat) := by decide
  obtain ⟨-, t, hleast, -, hruns, hsolve⟩ := schedules_agree (Game.fork Rat) hg hno
  refine ⟨hg, hno, t, hleast, fun s => ⟨(hruns s).1, (hruns s).2.imp fun _ h => h.1⟩, fun q => ?_⟩
  exact ((hsolve q).1 hroom).imp fun _ h => h.1

/-- The least fixed point gives Even the only node of the tower, but no setting of lifting gets there. -/
theorem schedules_tower_ne_ok :
    (Game.tower Rat).Valid ∧ (∀ v < (Game.tower Rat).size, (Game.tower Rat).owner v ≠ .stochastic) ∧
      (Game.tower Rat).size < Nat.pow 2 32 - 1 ∧
      (∃ t, LeastFixedPoint (Game.tower Rat) (ofGame (Game.tower Rat)) t ∧ (measureAt t 0).isTop = false) ∧
      ∀ (s : Lifting) (q : Query) (r : Regions), s.solve (Game.tower Rat) q ≠ .ok r := by
  have hg : (Game.tower Rat).Valid := rfl
  have hno : ∀ v < (Game.tower Rat).size, (Game.tower Rat).owner v ≠ .stochastic := by decide
  have hroom : ¬ HasRoom (Game.tower Rat) := fun h => absurd (h 0 Nat.one_pos) (by decide)
  refine ⟨hg, hno, by decide, ⟨_, leastFixedPoint_measures hg ⟨.all, .fifo⟩, by decide +kernel⟩, ?_⟩
  intro s q r hr
  rw [(s.solve_cases hg hno q).2 hroom] at hr
  cases hr

end Lifting
end OmegaGames
