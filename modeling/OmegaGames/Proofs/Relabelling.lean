import OmegaGames.Proofs.DescribedAutomata
import Mathlib.Algebra.Ring.Parity

/-!
# Priorities in place of marks

Conditions other than several sets to visit only give new labels to the edges. The priorities keep the
meaning of a condition if among any edges, those seen infinitely often, the least priority is even
exactly if the condition accepts their marks. This holds for all of these conditions but a pair. The
priorities of a pair are wrong on two kinds of edges: those that have no mark of the pair, and those of
which some have the first mark and others the second one alone.
-/
namespace OmegaGames

namespace Acceptance

/-- The sets of a condition that one set is left for good and another one visited again and again. -/
def pair? : Acceptance → Option (Nat × Nat)
  | .and [.fin m, .inf n] => some (m, n)
  | .and [.inf n, .fin m] => some (m, n)
  | _ => none

/-- The conditions that give priorities to edges by their own marks. -/
inductive Immediate : Acceptance → Prop
  | always : Immediate .always
  | never : Immediate .never
  | inf (n : Nat) : Immediate (.inf n)
  | fin (n : Nat) : Immediate (.fin n)
  | pair {c : Acceptance} {fin inf : Nat} (h : c.pair? = some (fin, inf)) : Immediate c

theorem pair?_cases {c : Acceptance} {fin inf : Nat} (h : c.pair? = some (fin, inf)) :
    c = .and [.fin fin, .inf inf] ∨ c = .and [.inf inf, .fin fin] := by
  rw [pair?.eq_def] at h
  split at h
  · cases h
    exact Or.inl rfl
  · cases h
    exact Or.inr rfl
  · cases h

theorem accepts_pair_iff {c : Acceptance} {fin inf : Nat} (h : c.pair? = some (fin, inf))
    (visited : Nat → Bool) : c.accepts visited = true ↔ ¬ visited fin = true ∧ visited inf = true := by
  rcases pair?_cases h with rfl | rfl
  · simp [accepts, acceptsAll]
  · simp [accepts, acceptsAll, and_comm]

end Acceptance

/-- The edges on which the priorities of a pair are right: if the first mark is seen, the second one is
not seen without it, and if not, the second one is seen. -/
def PairSettled (fin inf : Nat) (es : List OutgoingEdge) : Prop :=
  ((∃ e ∈ es, e.carries fin = true) → ∀ e ∈ es, e.carries inf = true → e.carries fin = true) ∧
    ((∀ e ∈ es, e.carries fin = false) → ∃ e ∈ es, e.carries inf = true)

namespace ParityCondition

def edgePriority (c : ParityCondition) (e : OutgoingEdge) : Nat := (c.priority? e.marked.marks).getD 0

@[simp] theorem edgePriority_constant (accepting : Bool) (e : OutgoingEdge) :
    (constant accepting).edgePriority e = if accepting then 0 else 1 := rfl

@[simp] theorem edgePriority_buchi (n : Nat) (e : OutgoingEdge) :
    (buchi n).edgePriority e = if e.carries n then 0 else 1 := by
  simp only [edgePriority, priority?, e.contains_marks_marked, Option.getD_some]

@[simp] theorem edgePriority_coBuchi (n : Nat) (e : OutgoingEdge) :
    (coBuchi n).edgePriority e = if e.carries n then 1 else 2 := by
  simp only [edgePriority, priority?, e.contains_marks_marked, Option.getD_some]

@[simp] theorem edgePriority_rabin (fin inf : Nat) (e : OutgoingEdge) :
    (rabin fin inf).edgePriority e = if e.carries fin then 1 else if e.carries inf then 0 else 2 := by
  simp only [edgePriority, priority?, e.contains_marks_marked, Option.getD_some]

structure LeastAt (c : ParityCondition) (es : List OutgoingEdge) (e : OutgoingEdge) : Prop where
  mem : e ∈ es
  le : ∀ e' ∈ es, c.edgePriority e ≤ c.edgePriority e'

theorem exists_leastAt (c : ParityCondition) {es : List OutgoingEdge} (hes : es ≠ []) :
    ∃ e, c.LeastAt es e ∧ (es.map c.edgePriority).min? = some (c.edgePriority e) := by
  have hne : (es.map c.edgePriority).min? ≠ none := by simpa [List.min?_eq_none_iff] using hes
  obtain ⟨p, hp⟩ := Option.ne_none_iff_exists'.mp hne
  obtain ⟨hmem, hle⟩ := List.min?_eq_some_iff.mp hp
  obtain ⟨e, he, rfl⟩ := List.mem_map.mp hmem
  exact ⟨e, ⟨he, fun e' he' => hle _ (List.mem_map_of_mem he')⟩, hp⟩

variable {es : List OutgoingEdge} {e : OutgoingEdge}

theorem even_buchi_iff {n : Nat} (h : (buchi n).LeastAt es e) :
    Even ((buchi n).edgePriority e) ↔ ∃ e ∈ es, e.carries n = true := by
  constructor
  · intro heven
    by_cases hn : e.carries n = true
    · exact ⟨e, h.mem, hn⟩
    · simp [hn] at heven
  · rintro ⟨e', he', hn⟩
    have hle := h.le e' he'
    rw [edgePriority_buchi n e', if_pos hn] at hle
    rw [Nat.le_zero.mp hle]
    exact Even.zero

theorem even_coBuchi_iff {n : Nat} (h : (coBuchi n).LeastAt es e) :
    Even ((coBuchi n).edgePriority e) ↔ ¬ ∃ e ∈ es, e.carries n = true := by
  constructor
  · rintro heven ⟨e', he', hn⟩
    have hle := h.le e' he'
    rw [edgePriority_coBuchi n e', if_pos hn] at hle
    by_cases hmarked : e.carries n = true
    · simp [hmarked] at heven
    · simp [hmarked] at hle
  · intro hnone
    have hn : ¬ e.carries n = true := fun hn => hnone ⟨e, h.mem, hn⟩
    rw [edgePriority_coBuchi, if_neg hn]
    exact even_two

/-- The least priority of a pair is even if an edge has the second mark alone, or none has the first. -/
theorem even_rabin_iff {fin inf : Nat} (h : (rabin fin inf).LeastAt es e) :
    Even ((rabin fin inf).edgePriority e) ↔
      (∃ e ∈ es, e.carries fin = false ∧ e.carries inf = true) ∨ ∀ e ∈ es, e.carries fin = false := by
  constructor
  · intro heven
    by_cases hfin : e.carries fin = true
    · simp [hfin] at heven
    · by_cases hinf : e.carries inf = true
      · exact Or.inl ⟨e, h.mem, by simpa using hfin, hinf⟩
      · right
        intro e' he'
        by_contra hfin'
        have hle := h.le e' he'
        rw [Bool.not_eq_false] at hfin'
        simp [hfin, hinf, hfin'] at hle
  · rintro (⟨e', he', hfin, hinf⟩ | hnone)
    · have hle := h.le e' he'
      have hzero : (rabin fin inf).edgePriority e' = 0 := by simp [hfin, hinf]
      rw [hzero] at hle
      rw [Nat.le_zero.mp hle]
      exact Even.zero
    · rw [edgePriority_rabin, hnone e h.mem]
      by_cases hinf : e.carries inf = true
      · simp [hinf]
      · simp [hinf, even_two]

/-- The priorities of a pair are right on settled edges only. -/
theorem even_rabin_iff_accepts_iff {fin inf : Nat} (h : (rabin fin inf).LeastAt es e) :
    (Even ((rabin fin inf).edgePriority e) ↔
      (¬ ∃ e ∈ es, e.carries fin = true) ∧ ∃ e ∈ es, e.carries inf = true) ↔ PairSettled fin inf es := by
  rw [even_rabin_iff h, PairSettled]
  by_cases hfin : ∃ e ∈ es, e.carries fin = true
  · -- The first mark is seen, so the pair rejects: no edge may have the second mark alone.
    obtain ⟨e₀, he₀, hfin₀⟩ := hfin
    constructor
    · intro hiff
      refine ⟨fun _ e' he' hinf => ?_, fun hnone => ?_⟩
      · by_contra halone
        exact (hiff.mp (Or.inl ⟨e', he', by simpa using halone, hinf⟩)).1 ⟨e₀, he₀, hfin₀⟩
      · simp [hnone e₀ he₀] at hfin₀
    · rintro ⟨hboth, -⟩
      constructor
      · rintro (⟨e', he', halone, hinf⟩ | hnone)
        · simp [hboth ⟨e₀, he₀, hfin₀⟩ e' he' hinf] at halone
        · simp [hnone e₀ he₀] at hfin₀
      · intro hacc
        exact absurd ⟨e₀, he₀, hfin₀⟩ hacc.1
  · -- The first mark is not seen, and the least priority is even whether or not the second one is.
    have hnone : ∀ e ∈ es, e.carries fin = false := by
      intro e' he'
      by_contra hfin'
      exact hfin ⟨e', he', by simpa using hfin'⟩
    constructor
    · intro hiff
      exact ⟨fun hseen => absurd hseen hfin, fun _ => (hiff.mp (Or.inr hnone)).2⟩
    · rintro ⟨-, hseen⟩
      exact ⟨fun _ => ⟨hfin, hseen hnone⟩, fun _ => Or.inr hnone⟩

theorem ofAcceptance_pair {c : Acceptance} {fin inf : Nat} (h : c.pair? = some (fin, inf)) :
    ofAcceptance c = .ok (rabin fin inf) := by
  rcases Acceptance.pair?_cases h with rfl | rfl
  · rfl
  · rfl

theorem exists_of_immediate {c : Acceptance} (h : c.Immediate) :
    ∃ k, ofAcceptance c = .ok k ∧ ∀ marks, k.priority? marks = some ((k.priority? marks).getD 0) := by
  cases h with
  | always => exact ⟨constant true, rfl, fun _ => rfl⟩
  | never => exact ⟨constant false, rfl, fun _ => rfl⟩
  | inf n => exact ⟨buchi n, rfl, fun _ => rfl⟩
  | fin n => exact ⟨coBuchi n, rfl, fun _ => rfl⟩
  | pair h => exact ⟨_, ofAcceptance_pair h, fun _ => rfl⟩

/-- Where the least priority keeps the meaning of a condition. -/
theorem even_iff_accepts_iff {c : Acceptance} (hc : c.Immediate) {k : ParityCondition}
    (hk : ofAcceptance c = .ok k) (h : k.LeastAt es e) :
    (Even (k.edgePriority e) ↔ c.accepts (fun m => es.any (·.carries m)) = true) ↔
      ∀ fin inf, c.pair? = some (fin, inf) → PairSettled fin inf es := by
  cases hc with
  | always =>
    cases hk
    simp [Acceptance.accepts, Acceptance.pair?]
  | never =>
    cases hk
    simp [Acceptance.accepts, Acceptance.pair?]
  | inf n =>
    cases hk
    rw [even_buchi_iff h, Acceptance.accepts, List.any_eq_true]
    simp [Acceptance.pair?]
  | fin n =>
    cases hk
    rw [even_coBuchi_iff h, Acceptance.accepts, Bool.not_eq_true', ← Bool.not_eq_true, List.any_eq_true]
    simp [Acceptance.pair?]
  | pair hpair =>
    obtain rfl := Except.ok.inj ((ofAcceptance_pair hpair).symm.trans hk)
    rw [Acceptance.accepts_pair_iff hpair, List.any_eq_true, List.any_eq_true, even_rabin_iff_accepts_iff h]
    constructor
    · intro hsettled fin' inf' hpair'
      cases hpair.symm.trans hpair'
      exact hsettled
    · intro hsettled
      exact hsettled _ _ hpair

end ParityCondition

namespace ExplicitAutomaton

theorem forall₂_edgesFrom_withPriorities (d : Description) (initial : Nat) (p : List Nat → Nat) {q : Nat}
    (hq : q < d.stateCount) :
    List.Forall₂ (fun (e : OutgoingEdge) g =>
        Stands (build d initial d.stateCount (withPriorities p d.markedEdges) 1).labels
          ⟨e.state.id, e.edge.guard, e.edge.target, p e.marked.marks⟩ g)
      (d.edgesFrom q)
      ((build d initial d.stateCount (withPriorities p d.markedEdges) 1).edgesFrom q) := by
  have hstored := forall₂_edgesFrom_build d initial _ (withPriorities p d.markedEdges) 1 hq
  have hfilter : (withPriorities p d.markedEdges).filter (·.source = q) =
      (d.edgesFrom q).map fun e => ⟨e.state.id, e.edge.guard, e.edge.target, p e.marked.marks⟩ := by
    rw [withPriorities, List.filter_map]
    simp only [Function.comp_def]
    rw [d.filter_markedEdges q, List.map_map]
    rfl
  rw [hfilter] at hstored
  exact List.forall₂_map_left_iff.mp hstored

/-- Edges are stored at their positions, and the least priority of some of them keeps the meaning of
the condition unless it is a pair that they do not settle. -/
theorem even_least_iff_accepts_iff (source : String) (d : Description) (a : ExplicitAutomaton Nat)
    (hread : Hoa.read source = .ok d)
    (hname : ∀ order favored colors, d.accName ≠ ["parity", order, favored, colors])
    (hform : d.acceptance.Immediate) (ha : parity d = .ok a) :
    (∀ q < d.stateCount, List.Forall₂
      (fun (e : OutgoingEdge) g => g.guard = e.edge.guard ∧ g.target = e.edge.target)
      (d.edgesFrom q) (a.edgesFrom q)) ∧
    ∀ run : List (OutgoingEdge × GuardedEdge), run ≠ [] →
      (∀ r ∈ run, ∃ q, r ∈ (d.edgesFrom q).zip (a.edgesFrom q)) →
      ∃ (priorities : List Nat) (least : Nat),
        run.map (fun r => a.labels.get? r.2.label) = priorities.map some ∧ priorities.min? = some least ∧
        ((Even least ↔ d.acceptance.accepts (fun m => run.any fun r => r.1.carries m) = true) ↔
          ∀ fin inf, d.acceptance.pair? = some (fin, inf) → PairSettled fin inf (run.map Prod.fst)) := by
  obtain ⟨k, hk, hp⟩ := ParityCondition.exists_of_immediate hform
  obtain ⟨q₀, -, -, rfl⟩ := (parity_eq_ok_iff_of_priorities ((ofDescription_eq hname).trans hk) hp).mp ha
  have hd := Hoa.inRange_of_read hread
  have hstored := fun q (hq : q < d.stateCount) =>
    forall₂_edgesFrom_withPriorities d q₀ (fun marks => (k.priority? marks).getD 0) hq
  refine ⟨fun q hq => (hstored q hq).imp fun e g h => ⟨h.guard, h.target⟩, ?_⟩
  intro run hne hrun
  have hlabel : run.map (fun r => (build d q₀ d.stateCount
      (withPriorities (fun marks => (k.priority? marks).getD 0) d.markedEdges) 1).labels.get? r.2.label) =
      ((run.map Prod.fst).map k.edgePriority).map some := by
    rw [List.map_map, List.map_map]
    apply List.map_congr_left
    intro r hr
    obtain ⟨q, hq⟩ := hrun r hr
    have hlt := (hd.of_mem_edgesFrom (List.of_mem_zip hq).1).1
    exact (List.forall₂_zip (hstored q hlt) hq).label
  have hne' : run.map Prod.fst ≠ [] := by simpa using hne
  obtain ⟨e, hleast, hmin⟩ := k.exists_leastAt hne'
  refine ⟨_, _, hlabel, hmin, ?_⟩
  rw [← ParityCondition.even_iff_accepts_iff hform hk hleast]
  simp only [List.any_map, Function.comp_def]

end ExplicitAutomaton

/-- A pair, with the first mark where a proposition holds and the second one where it does not. -/
def Hoa.alternation : String :=
  "HOA: v1\nStates: 1\nStart: 0\nAP: 1 \"a\"\nAcceptance: 2 Fin(0) & Inf(1)\n--BODY--\n" ++
    "State: 0\n[0] 0 \x7b0\x7d\n[!0] 0 \x7b1\x7d\n--END--\n"

namespace ExplicitAutomaton

private theorem exists_alternation : ∃ d a, Hoa.read Hoa.alternation = .ok d ∧ parity d = .ok a ∧
    d.accName = [] ∧ d.acceptance.pair? = some (0, 1) ∧ (d.edgesFrom 0).zip (a.edgesFrom 0) ≠ [] ∧
    ((d.edgesFrom 0).zip (a.edgesFrom 0)).map (fun r => a.labels.get? r.2.label) = [some 1, some 0] ∧
    d.acceptance.accepts (fun m => ((d.edgesFrom 0).zip (a.edgesFrom 0)).any fun r => r.1.carries m) =
      false := by
  have hrun : ((Hoa.read Hoa.alternation).toOption.bind fun d => (parity d).toOption.map fun a =>
      (d.accName, d.acceptance.pair?,
        ((d.edgesFrom 0).zip (a.edgesFrom 0)).map fun r => a.labels.get? r.2.label,
        d.acceptance.accepts fun m => ((d.edgesFrom 0).zip (a.edgesFrom 0)).any fun r => r.1.carries m)) =
      some ([], some (0, 1), [some 1, some 0], false) := by decide +kernel
  obtain ⟨d, hd, hrun⟩ := Option.bind_eq_some_iff.mp hrun
  obtain ⟨a, ha, hrun⟩ := Option.map_eq_some_iff.mp hrun
  simp only [Prod.mk.injEq] at hrun
  obtain ⟨hname, hpair, hlabels, hrejects⟩ := hrun
  refine ⟨d, a, eq_ok_of_toOption hd, eq_ok_of_toOption ha, hname, hpair, ?_, hlabels, hrejects⟩
  intro hnil
  simp [hnil] at hlabels

theorem even_least_iff_alternation : ∃ (d : Description) (a : ExplicitAutomaton Nat)
    (run : List (OutgoingEdge × GuardedEdge)), Hoa.read Hoa.alternation = .ok d ∧ d.accName = [] ∧
    d.acceptance.pair? = some (0, 1) ∧ parity d = .ok a ∧ run ≠ [] ∧
    (∀ r ∈ run, ∃ q, r ∈ (d.edgesFrom q).zip (a.edgesFrom q)) ∧
    ∃ (priorities : List Nat) (least : Nat), run.map (fun r => a.labels.get? r.2.label) =
        priorities.map some ∧ priorities.min? = some least ∧
      ((Even least ↔ d.acceptance.accepts (fun m => run.any fun r => r.1.carries m) = true) ↔
        ∀ fin inf, d.acceptance.pair? = some (fin, inf) → PairSettled fin inf (run.map Prod.fst)) := by
  obtain ⟨d, a, hread, ha, hname, hpair, hne, -, -⟩ := exists_alternation
  have hmem : ∀ r ∈ (d.edgesFrom 0).zip (a.edgesFrom 0), ∃ q, r ∈ (d.edgesFrom q).zip (a.edgesFrom q) :=
    fun r hr => ⟨0, hr⟩
  refine ⟨d, a, _, hread, hname, hpair, ha, hne, hmem, ?_⟩
  exact (even_least_iff_accepts_iff Hoa.alternation d a hread (by simp [hname]) (.pair hpair) ha).2 _ hne hmem

/-- Both edges together have an even least priority, and the pair does not accept their marks. -/
theorem even_least_alternation_not_accepted : ∃ (d : Description) (a : ExplicitAutomaton Nat)
    (run : List (OutgoingEdge × GuardedEdge)), Hoa.read Hoa.alternation = .ok d ∧
    d.accName = [] ∧ d.acceptance.pair? = some (0, 1) ∧ parity d = .ok a ∧ run ≠ [] ∧
    (∀ r ∈ run, ∃ q, r ∈ (d.edgesFrom q).zip (a.edgesFrom q)) ∧
    ∃ (priorities : List Nat) (least : Nat), run.map (fun r => a.labels.get? r.2.label) =
        priorities.map some ∧ priorities.min? = some least ∧ Even least ∧
      d.acceptance.accepts (fun m => run.any fun r => r.1.carries m) = false := by
  obtain ⟨d, a, hread, ha, hname, hpair, hne, hlabels, hrejects⟩ := exists_alternation
  refine ⟨d, a, _, hread, hname, hpair, ha, hne, fun r hr => ⟨0, hr⟩, ?_⟩
  exact ⟨[1, 0], 0, hlabels, rfl, Even.zero, hrejects⟩

end ExplicitAutomaton

end OmegaGames
