import OmegaGames.Qualitative.Lifting
import OmegaGames.Proofs.PredecessorLists
import OmegaGames.Proofs.MeasureRank
import OmegaGames.Proofs.NodeSets
import Mathlib.Algebra.Order.BigOperators.Group.Finset

/-!
# Lifting reaches the least fixed point

Every table that lifting goes through lies below what its lifts demand, and below every assignment of
ranks that covers its own demands. Each change raises the sum of the ranks, which is bounded, so both
the sweeps and the work list come to rest within the steps they are given, and then no lift changes a
measure any more.
-/
namespace OmegaGames

section Choice

variable {α : Type}

private theorem bestFrom_spec {better : α → α → Bool} (key : α → Int) (ys xs : List α) (best : α)
    (position : Nat) (hb : ∀ a ∈ ys ++ xs, ∀ b ∈ ys ++ xs, better a b = true ↔ key a < key b)
    (hpos : ys[position]? = some best) (hmin : ∀ b ∈ ys, key best ≤ key b) :
    ∃ a, (ys ++ xs)[bestFrom better best position ys.length xs]? = some a ∧
      ∀ b ∈ ys ++ xs, key a ≤ key b := by
  induction xs generalizing ys best position with
  | nil => exact ⟨best, by simpa [bestFrom] using hpos, by simpa using hmin⟩
  | cons x xs ih =>
    have happ : ys ++ x :: xs = (ys ++ [x]) ++ xs := by simp
    have hbest : best ∈ ys := List.mem_of_getElem? hpos
    have hx := hb x (by simp) best (by simp [hbest])
    rw [happ] at hb ⊢
    rw [bestFrom]
    split
    next hlt =>
      rw [hx] at hlt
      have hmin' : ∀ b ∈ ys ++ [x], key x ≤ key b := by
        intro b hb
        rcases List.mem_append.mp hb with hb | hb
        · exact (hlt.trans_le (hmin b hb)).le
        · rw [List.mem_singleton.mp hb]
      simpa using ih (ys ++ [x]) x ys.length hb (by simp) hmin'
    next hge =>
      rw [hx] at hge
      have hlt : position < ys.length := (List.getElem?_eq_some_iff.mp hpos).1
      have hmin' : ∀ b ∈ ys ++ [x], key best ≤ key b := by
        intro b hb
        rcases List.mem_append.mp hb with hb | hb
        · exact hmin b hb
        · rw [List.mem_singleton.mp hb]
          exact not_lt.mp hge
      simpa using ih (ys ++ [x]) best position hb (by rwa [List.getElem?_append_left hlt]) hmin'

theorem firstBest_spec (better : α → α → Bool) (key : α → Int) {xs : List α} (hx : xs ≠ [])
    (hb : ∀ a ∈ xs, ∀ b ∈ xs, better a b = true ↔ key a < key b) :
    ∃ a, xs[firstBest better xs]? = some a ∧ ∀ b ∈ xs, key a ≤ key b := by
  cases xs with
  | nil => exact absurd rfl hx
  | cons x xs => exact bestFrom_spec key [x] xs x 0 hb rfl (by simp)

end Choice

namespace Lifting

open OmegaGames.Level OmegaGames.Measure

variable {W : Type}

def rankAt (levels : List Level) (t : Table) (v : Nat) : Nat := (measureAt t v).rank levels

/-- The rank `r` of `v` meets what follows from the ranks `f` of its successors: that of one of them
for Even, and those of all of them otherwise. -/
def Covers (g : Game W) (levels : List Level) (f : Nat → Nat) (v r : Nat) : Prop :=
  (g.owner v = .even → ∃ u ∈ g.succs v, climb levels (g.priority v) (f u) ≤ r) ∧
    (g.owner v ≠ .even → ∀ u ∈ g.succs v, climb levels (g.priority v) (f u) ≤ r)

def Fitting (levels : List Level) (t : Table) : Prop := ∀ v, (measureAt t v).Fits levels

variable {g : Game W} {levels : List Level} {t t' : Table}

theorem Covers.mono {f f' : Nat → Nat} {v r r' : Nat} (h : Covers g levels f' v r)
    (hf : ∀ u ∈ g.succs v, f u ≤ f' u) (hr : r ≤ r') : Covers g levels f v r' := by
  refine ⟨fun ho => ?_, fun ho u hu => ?_⟩
  · obtain ⟨u, hu, hle⟩ := h.1 ho
    exact ⟨u, hu, (climb_mono (hf u hu)).trans (hle.trans hr)⟩
  · exact (climb_mono (hf u hu)).trans ((h.2 ho u hu).trans hr)

theorem bestPosition_spec (ht : Fitting levels t) {v : Nat} (hne : g.succs v ≠ []) :
    ∃ u, g.succ? v (bestPosition g t v) = some u ∧
      (g.owner v = .even → ∀ w ∈ g.succs v, rankAt levels t u ≤ rankAt levels t w) ∧
      (g.owner v ≠ .even → ∀ w ∈ g.succs v, rankAt levels t w ≤ rankAt levels t u) := by
  have hne' : (g.succs v).map (measureAt t) ≠ [] := by simpa using hne
  have hfit : ∀ m ∈ (g.succs v).map (measureAt t), m.Fits levels := by
    intro m hm
    obtain ⟨u, -, rfl⟩ := List.mem_map.mp hm
    exact ht u
  by_cases ho : g.owner v = .even
  · obtain ⟨m, hm, hmin⟩ := firstBest_spec Measure.lt (fun m => (m.rank levels : Int)) hne'
      fun a ha b hb => by rw [lt_iff_rank_lt (hfit a ha) (hfit b hb)]; omega
    rw [List.getElem?_map] at hm
    obtain ⟨u, hu, rfl⟩ := Option.map_eq_some_iff.mp hm
    refine ⟨u, by simpa [bestPosition, ho, Game.succ?] using hu, fun _ w hw => ?_, fun h => absurd ho h⟩
    have hle := hmin _ (List.mem_map_of_mem hw)
    exact Int.ofNat_le.mp hle
  · obtain ⟨m, hm, hmin⟩ := firstBest_spec (fun a b => Measure.lt b a)
      (fun m => -(m.rank levels : Int)) hne'
      fun a ha b hb => by rw [lt_iff_rank_lt (hfit b hb) (hfit a ha)]; omega
    rw [List.getElem?_map] at hm
    obtain ⟨u, hu, rfl⟩ := Option.map_eq_some_iff.mp hm
    refine ⟨u, ?_, fun h => absurd h ho, fun _ w hw => ?_⟩
    · cases hown : g.owner v with
      | even => exact absurd hown ho
      | odd => simpa [bestPosition, hown, Game.succ?] using hu
      | stochastic => simpa [bestPosition, hown, Game.succ?] using hu
    · have hle := hmin _ (List.mem_map_of_mem hw)
      simp only [rankAt]
      omega

theorem rank_lifted_le_iff (hs : Increasing levels) (ht : Fitting levels t) {v : Nat}
    (hne : g.succs v ≠ []) (r : Nat) :
    (lifted g levels t v).rank levels ≤ r ↔ Covers g levels (rankAt levels t) v r := by
  obtain ⟨u, hu, hmin, hmax⟩ := bestPosition_spec ht hne
  have hmem := g.mem_succs_of_succ? hu
  simp only [lifted, hu]
  rw [rank_raise hs _ (ht u)]
  constructor
  · intro hr
    exact ⟨fun _ => ⟨u, hmem, hr⟩, fun ho w hw => (climb_mono (hmax ho w hw)).trans hr⟩
  · intro hr
    by_cases ho : g.owner v = .even
    · obtain ⟨w, hw, hle⟩ := hr.1 ho
      exact (climb_mono (hmin ho w hw)).trans hle
    · exact hr.2 ho u hmem

theorem fits_lifted (hs : Increasing levels) (ht : Fitting levels t) (v : Nat) :
    (lifted g levels t v).Fits levels := by
  simp only [lifted]
  split
  · exact fits_raise hs _ (ht _)
  · exact ht v

theorem rank_lifted_mono (hs : Increasing levels) (ht : Fitting levels t) (ht' : Fitting levels t')
    {v : Nat} (hne : g.succs v ≠ []) (h : ∀ u ∈ g.succs v, rankAt levels t u ≤ rankAt levels t' u) :
    (lifted g levels t v).rank levels ≤ (lifted g levels t' v).rank levels := by
  rw [rank_lifted_le_iff hs ht hne]
  exact ((rank_lifted_le_iff hs ht' hne _).mp le_rfl).mono h le_rfl

theorem lifted_congr (hs : Increasing levels) (ht : Fitting levels t) (ht' : Fitting levels t')
    {v : Nat} (hne : g.succs v ≠ []) (h : ∀ u ∈ g.succs v, measureAt t' u = measureAt t u) :
    lifted g levels t' v = lifted g levels t v := by
  have heq : ∀ u ∈ g.succs v, rankAt levels t' u = rankAt levels t u := fun u hu => by
    rw [rankAt, h u hu, rankAt]
  refine eq_of_rank_eq (fits_lifted hs ht' v) (fits_lifted hs ht v) (le_antisymm ?_ ?_)
  · exact rank_lifted_mono hs ht' ht hne fun u hu => (heq u hu).le
  · exact rank_lifted_mono hs ht ht' hne fun u hu => (heq u hu).ge

/-! ## One lift -/

/-- What every table on the way satisfies: a lift lowers no measure, and the table lies below every
assignment of ranks that covers its own demands. -/
structure Rising (g : Game W) (levels : List Level) (t : Table) : Prop where
  size : t.size = g.size
  fits : Fitting levels t
  rising : ∀ v < g.size, rankAt levels t v ≤ (lifted g levels t v).rank levels
  below : ∀ f, (∀ v < g.size, Covers g levels f v (f v)) → ∀ v < g.size, rankAt levels t v ≤ f v

def Stable (g : Game W) (levels : List Level) (t : Table) : Prop :=
  ∀ v < g.size, lifted g levels t v = measureAt t v

def potential (g : Game W) (levels : List Level) (t : Table) : Nat :=
  ∑ v ∈ Finset.range g.size, rankAt levels t v

theorem measureAt_set (t : Table) (v u : Nat) (m : Measure) (hv : v < t.size) :
    measureAt (t.setIfInBounds v m) u = if u = v then m else measureAt t u := by
  by_cases hu : u = v
  · subst hu
    simp [measureAt, Array.getD, hv]
  · rw [if_neg hu]
    by_cases hlt : u < t.size
    · simp [measureAt, Array.getD, hlt, Ne.symm hu]
    · simp [measureAt, Array.getD, hlt]

theorem Rising.potential_le (h : Rising g levels t) :
    potential g levels t ≤ g.size * volume levels := by
  have hle := Finset.sum_le_card_nsmul (Finset.range g.size) (rankAt levels t) (volume levels)
    fun v _ => rank_le_volume (h.fits v)
  simpa [potential] using hle

theorem rising_initial (g : Game W) (levels : List Level) : Rising g levels (initial g levels) := by
  have hat : ∀ v < g.size, measureAt (initial g levels) v = zero levels := by
    intro v hv
    simp [measureAt, initial, Array.getD, hv]
  have hfit : Fitting levels (initial g levels) := by
    intro v
    by_cases hlt : v < g.size
    · rw [hat v hlt]
      exact fits_zero levels
    · simp [measureAt, initial, Array.getD, hlt, Fits]
  refine ⟨by simp [initial], hfit, fun v hlt => ?_, fun f _ v hlt => ?_⟩
  · rw [rankAt, hat v hlt, rank_zero]
    exact Nat.zero_le _
  · rw [rankAt, hat v hlt, rank_zero]
    exact Nat.zero_le _

section Valid

variable [Scalar W] (hv : g.Valid) (hs : Increasing levels)

include hs in
omit [Scalar W] in
/-- A table in which one node has its lifted measure lies above the one before. -/
private theorem Rising.rankAt_le (h : Rising g levels t) {v : Nat} (hlt : v < g.size)
    (hat : measureAt t' v = lifted g levels t v) (hne : ∀ u, u ≠ v → measureAt t' u = measureAt t u) :
    Fitting levels t' ∧ ∀ u, rankAt levels t u ≤ rankAt levels t' u := by
  constructor
  · intro u
    by_cases hu : u = v
    · rw [hu, hat]
      exact fits_lifted hs h.fits v
    · rw [hne u hu]
      exact h.fits u
  · intro u
    by_cases hu : u = v
    · rw [hu, rankAt, rankAt, hat]
      exact h.rising v hlt
    · rw [rankAt, rankAt, hne u hu]

include hv hs in
private theorem Rising.raised (h : Rising g levels t) {v : Nat} (hlt : v < g.size)
    (hsize : t'.size = g.size) (hat : measureAt t' v = lifted g levels t v)
    (hne : ∀ u, u ≠ v → measureAt t' u = measureAt t u) : Rising g levels t' := by
  obtain ⟨hfit, hle⟩ := h.rankAt_le hs hlt hat hne
  refine ⟨hsize, hfit, fun u hu => ?_, fun f hf u hu => ?_⟩
  · have hmono := rank_lifted_mono hs h.fits hfit (hv.succs_ne_nil hu) fun w _ => hle w
    by_cases huv : u = v
    · subst huv
      rwa [rankAt, hat]
    · rw [rankAt, hne u huv]
      exact (h.rising u hu).trans hmono
  · by_cases huv : u = v
    · subst huv
      rw [rankAt, hat, rank_lifted_le_iff hs h.fits (hv.succs_ne_nil hu)]
      exact (hf u hu).mono (fun w hw => h.below f hf w (hv.succ_lt hw)) le_rfl
    · rw [rankAt, hne u huv]
      exact h.below f hf u hu

include hv hs in
/-- A lift leaves the table as it is, or gives one node a greater measure. -/
theorem lift_cases (h : Rising g levels t) {v : Nat} (hlt : v < g.size) :
    (lift g levels t v = (t, false) ∧ lifted g levels t v = measureAt t v) ∨
      ∃ t', lift g levels t v = (t', true) ∧ Rising g levels t' ∧
        potential g levels t < potential g levels t' ∧ measureAt t' v = lifted g levels t v ∧
        ∀ u, u ≠ v → measureAt t' u = measureAt t u := by
  by_cases heq : lifted g levels t v = measureAt t v
  · exact Or.inl ⟨by simp [lift, heq], heq⟩
  · let t' := t.setIfInBounds v (lifted g levels t v)
    have hset : ∀ u, measureAt t' u = if u = v then lifted g levels t v else measureAt t u :=
      fun u => measureAt_set t v u _ (h.size ▸ hlt)
    have hat : measureAt t' v = lifted g levels t v := by rw [hset, if_pos rfl]
    have hne : ∀ u, u ≠ v → measureAt t' u = measureAt t u := fun u hu => by rw [hset, if_neg hu]
    have hsize : t'.size = g.size := by simpa [t'] using h.size
    obtain ⟨-, hle⟩ := h.rankAt_le hs hlt hat hne
    have hgrow : rankAt levels t v < rankAt levels t' v := by
      refine lt_of_le_of_ne (hle v) fun hr => heq ?_
      rw [rankAt, rankAt, hat] at hr
      exact (eq_of_rank_eq (h.fits v) (fits_lifted hs h.fits v) hr).symm
    refine Or.inr ⟨t', by simp [lift, heq, t'], h.raised hv hs hlt hsize hat hne, ?_, hat, hne⟩
    exact Finset.sum_lt_sum (fun u _ => hle u) ⟨v, Finset.mem_range.mpr hlt, hgrow⟩

/-! ## Sweeps -/

def sweepStep (g : Game W) (levels : List Level) (p : Table × Bool) (v : Nat) : Table × Bool :=
  ((lift g levels p.1 v).1, p.2 || (lift g levels p.1 v).2)

omit [Scalar W] in
private theorem changed_foldl_sweepStep (vs : List Nat) (t : Table) :
    (vs.foldl (sweepStep g levels) (t, true)).2 = true := by
  induction vs generalizing t with
  | nil => rfl
  | cons v vs ih =>
    rw [List.foldl_cons, sweepStep, Bool.true_or]
    exact ih _

include hv hs in
private theorem rising_foldl_sweepStep (vs : List Nat) (hvs : ∀ v ∈ vs, v < g.size)
    (h : Rising g levels t) (changed : Bool) :
    Rising g levels (vs.foldl (sweepStep g levels) (t, changed)).1 ∧
      potential g levels t ≤ potential g levels (vs.foldl (sweepStep g levels) (t, changed)).1 := by
  induction vs generalizing t changed with
  | nil => exact ⟨h, le_rfl⟩
  | cons v vs ih =>
    have hvs' : ∀ u ∈ vs, u < g.size := fun u hu => hvs u (List.mem_cons_of_mem v hu)
    rw [List.foldl_cons, sweepStep]
    rcases lift_cases hv hs h (hvs v List.mem_cons_self) with ⟨hl, -⟩ | ⟨t', hl, h', hpot, -⟩
    · rw [hl]
      exact ih hvs' h _
    · rw [hl]
      obtain ⟨hrise, hle⟩ := ih hvs' h' (changed || true)
      exact ⟨hrise, hpot.le.trans hle⟩

include hv hs in
/-- A sweep that changes nothing has found every node at rest; any other one raises the sum. -/
private theorem foldl_sweepStep_cases (vs : List Nat) (hvs : ∀ v ∈ vs, v < g.size)
    (h : Rising g levels t) :
    (vs.foldl (sweepStep g levels) (t, false) = (t, false) ∧
        ∀ v ∈ vs, lifted g levels t v = measureAt t v) ∨
      ∃ t', vs.foldl (sweepStep g levels) (t, false) = (t', true) ∧ Rising g levels t' ∧
        potential g levels t < potential g levels t' := by
  induction vs with
  | nil => exact Or.inl ⟨rfl, by simp⟩
  | cons v vs ih =>
    have hvs' : ∀ u ∈ vs, u < g.size := fun u hu => hvs u (List.mem_cons_of_mem v hu)
    rw [List.foldl_cons, sweepStep]
    rcases lift_cases hv hs h (hvs v List.mem_cons_self) with ⟨hl, heq⟩ | ⟨t', hl, h', hpot, -⟩
    · rw [hl]
      rcases ih hvs' with ⟨hsame, hall⟩ | hchanged
      · exact Or.inl ⟨hsame, List.forall_mem_cons.mpr ⟨heq, hall⟩⟩
      · exact Or.inr hchanged
    · rw [hl]
      obtain ⟨hrise, hle⟩ := rising_foldl_sweepStep hv hs vs hvs' h' true
      exact Or.inr ⟨_, Prod.ext rfl (changed_foldl_sweepStep vs t'), hrise, hpot.trans_le hle⟩

include hv hs in
theorem sweepAll_stable (rounds : Nat) (h : Rising g levels t)
    (hr : g.size * volume levels < potential g levels t + rounds) :
    Rising g levels (sweepAll g levels rounds t) ∧ Stable g levels (sweepAll g levels rounds t) := by
  induction rounds generalizing t with
  | zero =>
    -- More rounds were given than the sum of the ranks can grow.
    have hle := h.potential_le
    omega
  | succ rounds ih =>
    have hrange : ∀ v ∈ List.range g.size, v < g.size := fun v hv => List.mem_range.mp hv
    have hsweep : sweep g levels t = (List.range g.size).foldl (sweepStep g levels) (t, false) := rfl
    rcases foldl_sweepStep_cases hv hs _ hrange h with ⟨hsame, hall⟩ | ⟨t', hchanged, h', hpot⟩
    · rw [sweepAll, hsweep, hsame]
      exact ⟨h, fun v hlt => hall v (List.mem_range.mpr hlt)⟩
    · rw [sweepAll, hsweep, hchanged]
      exact ih h' (by omega)

/-! ## The work list -/

/-- An agenda that lists nodes, each once. -/
structure Listed (n : Nat) (a : Agenda) : Prop where
  range : a.queued.range = n
  mem : ∀ v, v ∈ a.queue ↔ v ∈ a.queued
  nodup : a.queue.Nodup

/-- The agenda holds every node that a lift may still change. -/
structure Waiting (g : Game W) (levels : List Level) (t : Table) (a : Agenda) : Prop
    extends Listed g.size a where
  rest : ∀ v < g.size, v ∉ a.queue → lifted g levels t v = measureAt t v

theorem Listed.lt {n : Nat} {a : Agenda} (h : Listed n a) {v : Nat} (hv : v ∈ a.queue) : v < n :=
  h.range ▸ NodeSet.lt_range ((h.mem v).mp hv)

theorem Listed.length_le {n : Nat} {a : Agenda} (h : Listed n a) : a.queue.length ≤ n := by
  have hsub : a.queue ⊆ List.range n := fun v hv => List.mem_range.mpr (h.lt hv)
  simpa using (h.nodup.subperm hsub).length_le

private theorem Listed.next {n : Nat} {a : Agenda} (h : Listed n a) {v : Nat} {rest : List Nat}
    (hq : a.queue = v :: rest) : Listed n ⟨rest, a.queued.erase v⟩ := by
  have hnodup := h.nodup
  rw [hq, List.nodup_cons] at hnodup
  refine ⟨by simpa using h.range, fun w => ?_, hnodup.2⟩
  have hmem := h.mem w
  rw [hq, List.mem_cons] at hmem
  simp only [NodeSet.mem_iff, NodeSet.contains_erase, Bool.and_eq_true, decide_eq_true_eq] at hmem ⊢
  rw [← hmem]
  constructor
  · intro hw
    exact ⟨Or.inr hw, fun hvw => hnodup.1 (hvw ▸ hw)⟩
  · rintro ⟨rfl | hw, hvw⟩
    · exact absurd rfl hvw
    · exact hw

private theorem Listed.add {n : Nat} {a : Agenda} (h : Listed n a) (order : LiftOrder) {u : Nat}
    (hu : u < n) : Listed n (a.add order u) ∧ ∀ w, w ∈ (a.add order u).queue ↔ w ∈ a.queue ∨ w = u := by
  by_cases hq : a.queued.contains u = true
  · have hadd : a.add order u = a := by simp [Agenda.add, hq]
    have huq : u ∈ a.queue := (h.mem u).mpr hq
    rw [hadd]
    refine ⟨h, fun w => ⟨Or.inl, ?_⟩⟩
    rintro (hw | rfl)
    · exact hw
    · exact huq
  · have huq : u ∉ a.queue := fun hmem => hq ((h.mem u).mp hmem)
    have hins : ∀ w, w ∈ a.queued.insert u ↔ w ∈ a.queue ∨ w = u := by
      intro w
      rw [h.mem w]
      exact NodeSet.mem_insert (h.range ▸ hu)
    cases order with
    | fifo =>
      have hadd : a.add .fifo u = ⟨a.queue ++ [u], a.queued.insert u⟩ := by simp [Agenda.add, hq]
      rw [hadd]
      refine ⟨⟨by simpa using h.range, fun w => ?_, ?_⟩, fun w => by simp⟩
      · rw [hins]
        simp
      · exact List.nodup_append.mpr ⟨h.nodup, List.nodup_singleton u, by grind⟩
    | lifo =>
      have hadd : a.add .lifo u = ⟨u :: a.queue, a.queued.insert u⟩ := by simp [Agenda.add, hq]
      rw [hadd]
      refine ⟨⟨by simpa using h.range, fun w => ?_, List.nodup_cons.mpr ⟨huq, h.nodup⟩⟩, fun w => ?_⟩
      · rw [hins, List.mem_cons, or_comm]
      · rw [List.mem_cons, or_comm]

private theorem Listed.addAll {n : Nat} {a : Agenda} (h : Listed n a) (order : LiftOrder)
    (us : List (Nat × Nat)) (hus : ∀ e ∈ us, e.1 < n) :
    Listed n (us.foldl (fun b e => b.add order e.1) a) ∧
      ∀ w, w ∈ (us.foldl (fun b e => b.add order e.1) a).queue ↔ w ∈ a.queue ∨ ∃ e ∈ us, e.1 = w := by
  induction us generalizing a with
  | nil => exact ⟨h, by simp⟩
  | cons e us ih =>
    obtain ⟨hadd, hmem⟩ := h.add order (hus e List.mem_cons_self)
    obtain ⟨hall, hmem'⟩ := ih hadd fun e' he' => hus e' (List.mem_cons_of_mem e he')
    refine ⟨hall, fun w => ?_⟩
    rw [List.foldl_cons, hmem', hmem, List.exists_mem_cons_iff, or_assoc, eq_comm (a := w)]

include hv hs in
/-- After a change, what may change next waits: the predecessors are put on the list. -/
private theorem Waiting.changed {a : Agenda} (order : LiftOrder) {v : Nat} {rest : List Nat}
    (h : Rising g levels t) (h' : Rising g levels t') (hw : Waiting g levels t a)
    (hq : a.queue = v :: rest) (hat : measureAt t' v = lifted g levels t v)
    (hne : ∀ u, u ≠ v → measureAt t' u = measureAt t u) :
    Waiting g levels t' ((g.predecessors.of v).foldl (fun b e => b.add order e.1)
      ⟨rest, a.queued.erase v⟩) := by
  have hlt : v < g.size := hw.lt (hq ▸ List.mem_cons_self)
  have hpred : ∀ u, (∃ e ∈ g.predecessors.of v, e.1 = u) ↔ v ∈ g.succs u := by
    intro u
    rw [g.mem_succs_iff]
    constructor
    · rintro ⟨⟨_, i⟩, he, rfl⟩
      exact ⟨i, (g.mem_predecessors_of hlt).mp he⟩
    · rintro ⟨i, hi⟩
      exact ⟨(u, i), (g.mem_predecessors_of hlt).mpr hi, rfl⟩
  have hsource : ∀ e ∈ g.predecessors.of v, e.1 < g.size := fun e he =>
    g.lt_size_of_mem_succs ((hpred e.1).mp ⟨e, he, rfl⟩)
  obtain ⟨hlisted, hmem⟩ := (hw.toListed.next hq).addAll order _ hsource
  refine ⟨hlisted, fun u hu hnot => ?_⟩
  rw [hmem, hpred] at hnot
  push Not at hnot
  have hsame : lifted g levels t' u = lifted g levels t u :=
    lifted_congr hs h.fits h'.fits (hv.succs_ne_nil hu) fun w hwu => hne w fun hwv => hnot.2 (hwv ▸ hwu)
  by_cases huv : u = v
  · rw [huv] at hsame ⊢
    rw [hsame, hat]
  · rw [hsame, hne u huv]
    exact hw.rest u hu (by simp [hq, huv, hnot.1])

include hv hs in
theorem work_stable (order : LiftOrder) (steps : Nat) {a : Agenda} (h : Rising g levels t)
    (hw : Waiting g levels t a)
    (hsteps : g.size * (g.size * volume levels - potential g levels t) + a.queue.length < steps) :
    Rising g levels (work g.arena levels order steps a t) ∧
      Stable g levels (work g.arena levels order steps a t) := by
  induction steps generalizing a t with
  | zero => omega
  | succ steps ih =>
    cases hq : a.queue with
    | nil =>
      simp only [work, hq]
      exact ⟨h, fun v hlt => hw.rest v hlt (by simp [hq])⟩
    | cons v rest =>
      have hlt : v < g.size := hw.lt (hq ▸ List.mem_cons_self)
      have hlen : a.queue.length = rest.length + 1 := by simp [hq]
      rcases lift_cases hv hs h hlt with ⟨hl, heq⟩ | ⟨t', hl, h', hpot, hat, hne⟩
      · simp only [work, hq, Game.arena, hl]
        refine ih h ⟨hw.toListed.next hq, fun u hu hnot => ?_⟩ (by dsimp only; omega)
        by_cases huv : u = v
        · rw [huv, heq]
        · exact hw.rest u hu (by simpa [hq, huv] using hnot)
      · simp only [work, hq, Game.arena, hl]
        have hw' := hw.changed hv hs order h h' hq hat hne
        refine ih h' hw' ?_
        -- The sum has grown, which pays for a list of any length.
        have hlist := hw'.length_le
        have hle := h'.potential_le
        have hpay : g.size * (g.size * volume levels - potential g levels t') + g.size ≤
            g.size * (g.size * volume levels - potential g levels t) := by
          rw [← Nat.mul_succ]
          exact Nat.mul_le_mul_left _ (by omega)
        omega

omit [Scalar W] in
private theorem waiting_initial (order : LiftOrder) : Waiting g levels t (.initial order g.size) := by
  have hall : ∀ v, v ∈ (Agenda.initial order g.size).queue ↔ v < g.size := by
    cases order <;> simp [Agenda.initial]
  refine ⟨⟨?_, fun v => ?_, ?_⟩, fun v hlt hnot => absurd ((hall v).mpr hlt) hnot⟩
  · cases order <;> simp [Agenda.initial]
  · cases order <;> simp [Agenda.initial]
  · cases order with
    | fifo => exact List.nodup_range
    | lifo => exact List.nodup_reverse.mpr List.nodup_range

private theorem count_eq (levels : List Level) : Measure.count levels = volume levels + 1 := by
  have hfold : (levels.map fun l => l.bound + 1).foldr (· * ·) 1 = volume levels := by
    induction levels with
    | nil => rfl
    | cons l ls ih => rw [List.map_cons, List.foldr_cons, ih, volume]
  rw [Measure.count, hfold]

include hv in
/-- Lifting ends in a table that no lift changes, whatever the order of the lifts. -/
theorem measures_stable (s : Lifting) :
    Rising g (ofGame g) (s.measures g) ∧ Stable g (ofGame g) (s.measures g) := by
  have hs := increasing_ofGame g
  have hstart := rising_initial g (ofGame g)
  have hbound : changeBound g (ofGame g) = g.size * volume (ofGame g) + g.size := by
    rw [changeBound, count_eq, Nat.mul_succ]
  cases hm : s.method with
  | all =>
    simp only [measures, hm]
    exact sweepAll_stable hv hs _ hstart (by omega)
  | successorChanged =>
    simp only [measures, hm]
    have hw : Waiting g (ofGame g) (initial g (ofGame g)) (.initial s.order g.size) :=
      waiting_initial s.order
    refine work_stable hv hs s.order _ hstart hw ?_
    have hlist := hw.length_le
    have hle : g.size * (g.size * volume (ofGame g) - potential g (ofGame g) (initial g (ofGame g))) ≤
        changeBound g (ofGame g) * g.size := by
      rw [Nat.mul_comm (changeBound g (ofGame g))]
      exact Nat.mul_le_mul_left _ (by omega)
    omega

end Valid
end Lifting
end OmegaGames
