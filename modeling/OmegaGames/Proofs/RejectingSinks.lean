import Mathlib.Data.Nat.Bitwise
import OmegaGames.Proofs.Mentions

/-!
# The marks of the sink

Where no edge is enabled an automaton moves to its sink for good, and the marks of that step should not be
accepted. They are looked for among no marks, all marks and, if there are not too many acceptance sets, all
sets of marks in turn. So a rejected set of marks is found exactly if there is one and either the search goes
through all of them or one of the first two is rejected already.
-/
namespace OmegaGames

namespace Acceptance

/-- The condition does not accept if exactly these marks are seen again and again. -/
def Rejects (a : Acceptance) (marks : List Nat) : Prop := a.accepts (fun n => marks.contains n) = false

instance (a : Acceptance) (marks : List Nat) : Decidable (a.Rejects marks) :=
  inferInstanceAs (Decidable (a.accepts (fun n => marks.contains n) = false))

def CanReject (a : Acceptance) (bound : Nat) : Prop :=
  ∃ marks : List Nat, (∀ m ∈ marks, m < bound) ∧ a.Rejects marks

theorem rejects_congr {a : Acceptance} {marks marks' : List Nat}
    (h : ∀ n, a.Mentions n → (n ∈ marks ↔ n ∈ marks')) : a.Rejects marks ↔ a.Rejects marks' := by
  have hcontains : ∀ n, a.Mentions n → marks.contains n = marks'.contains n := by
    intro n hn
    rw [Bool.eq_iff_iff, List.contains_iff_mem, List.contains_iff_mem]
    exact h n hn
  rw [Rejects, Rejects, accepts_congr hcontains]

end Acceptance

namespace ExplicitAutomaton

/-! ## The search -/

theorem mem_markSubset {n bits m : Nat} : m ∈ markSubset n bits ↔ m < n ∧ bits.testBit m = true := by
  rw [markSubset, List.mem_filter, List.mem_range]

theorem marksIn_markSubset (n bits : Nat) : MarksIn n (markSubset n bits) := by
  constructor
  · exact List.pairwise_lt_range.filter _
  · intro m hm
    exact (mem_markSubset.mp hm).1

/-- The search comes to every set of marks. -/
theorem exists_markSubset (n : Nat) (marks : List Nat) :
    ∃ bits < Nat.pow 2 n, ∀ m < n, m ∈ markSubset n bits ↔ m ∈ marks := by
  refine ⟨Nat.ofBits fun i : Fin n => marks.contains i.val, Nat.ofBits_lt_two_pow _, ?_⟩
  intro m hm
  rw [mem_markSubset, Nat.testBit_ofBits_lt _ m hm, List.contains_iff_mem]
  exact and_iff_right hm

/-- One of the marks that are tried first, none or all, is rejected. -/
def RejectsAtOnce (d : Description) : Prop :=
  d.acceptance.Rejects [] ∨ d.acceptance.Rejects (List.range d.acceptanceSets)

instance (d : Description) : Decidable (RejectsAtOnce d) :=
  inferInstanceAs (Decidable (d.acceptance.Rejects [] ∨ d.acceptance.Rejects (List.range d.acceptanceSets)))

/-- What the search gives: rejected marks, or nothing after all that it tries has been accepted. -/
theorem rejectingMarks_cases (d : Description) :
    d.acceptance.Rejects (rejectingMarks d) ∧ MarksIn d.acceptanceSets (rejectingMarks d) ∧
        (RejectsAtOnce d ∨ d.acceptanceSets ≤ searchLimit) ∨
      rejectingMarks d = [] ∧ ¬ RejectsAtOnce d ∧ (d.acceptanceSets ≤ searchLimit →
        ∀ bits < Nat.pow 2 d.acceptanceSets, ¬ d.acceptance.Rejects (markSubset d.acceptanceSets bits)) := by
  have hrejects : ∀ marks : List Nat, (!d.acceptance.accepts fun n => marks.contains n) = true ↔
      d.acceptance.Rejects marks := by simp [Acceptance.Rejects]
  rw [rejectingMarks]
  dsimp only
  split
  · rename_i hnone
    rw [hrejects] at hnone
    exact Or.inl ⟨hnone, ⟨.nil, by simp⟩, Or.inl (Or.inl hnone)⟩
  · rename_i hnone
    rw [hrejects] at hnone
    split
    · rename_i hall
      rw [hrejects] at hall
      refine Or.inl ⟨hall, ⟨List.pairwise_lt_range, ?_⟩, Or.inl (Or.inr hall)⟩
      exact fun m hm => List.mem_range.mp hm
    · rename_i hall
      rw [hrejects] at hall
      have hfirst : ¬ RejectsAtOnce d := not_or.mpr ⟨hnone, hall⟩
      split
      · rename_i hlimit
        split
        · rename_i bits hbits
          have hfound : d.acceptance.Rejects (markSubset d.acceptanceSets bits) :=
            (hrejects _).mp (List.find?_some hbits :)
          exact Or.inl ⟨hfound, marksIn_markSubset _ _, Or.inr hlimit⟩
        · rename_i hbits
          refine Or.inr ⟨rfl, hfirst, fun _ bits hlt => ?_⟩
          rw [← hrejects]
          exact List.find?_eq_none.mp hbits bits (List.mem_range.mpr hlt)
      · rename_i hlimit
        exact Or.inr ⟨rfl, hfirst, fun hle => absurd hle hlimit⟩

theorem marksIn_rejectingMarks (d : Description) : MarksIn d.acceptanceSets (rejectingMarks d) := by
  rcases rejectingMarks_cases d with ⟨-, hin, -⟩ | ⟨hnil, -, -⟩
  · exact hin
  · rw [hnil]
    exact ⟨.nil, by simp⟩

/-- Past the limit nothing but no marks and all marks is tried, and no marks are given even if accepted. -/
theorem rejectingMarks_eq_nil {d : Description} (hfirst : ¬ RejectsAtOnce d)
    (hsets : searchLimit < d.acceptanceSets) : rejectingMarks d = [] := by
  rcases rejectingMarks_cases d with ⟨-, -, hway⟩ | ⟨hnil, -, -⟩
  · exact absurd (hway.resolve_left hfirst) (Nat.not_le.mpr hsets)
  · exact hnil

/-- Rejected marks are found if there are any and either all are tried or one of the first two will do. -/
theorem rejects_rejectingMarks_iff {d : Description} (hd : d.WellFormed) :
    d.acceptance.Rejects (rejectingMarks d) ↔
      d.acceptance.CanReject d.acceptanceSets ∧ (RejectsAtOnce d ∨ d.acceptanceSets ≤ searchLimit) := by
  rcases rejectingMarks_cases d with ⟨hrejects, hin, hway⟩ | ⟨hnil, hfirst, hsearch⟩
  · exact iff_of_true hrejects ⟨⟨_, hin.2, hrejects⟩, hway⟩
  · rw [hnil]
    constructor
    · intro hnone
      exact absurd (Or.inl hnone) hfirst
    · rintro ⟨⟨marks, -, hmarks⟩, hway⟩
      -- A rejected set of marks is one of those that the search has tried.
      obtain ⟨bits, hlt, hmem⟩ := exists_markSubset d.acceptanceSets marks
      have hsame : d.acceptance.Rejects (markSubset d.acceptanceSets bits) ↔ d.acceptance.Rejects marks :=
        Acceptance.rejects_congr fun n hn => hmem n (hd.condition n hn)
      exact absurd (hsame.mpr hmarks) (hsearch (hway.resolve_left hfirst) bits hlt)

/-! ## The sink -/

section Sink

variable {L : Type} [DecidableEq L] (d : Description) (initial n : Nat) (es : List (LabelledEdge L)) (sinkLabel : L)

theorem getElem?_sink_build : (build d initial n es sinkLabel).edges[n]? = some [] := by
  have hstored := stored_build d initial n es sinkLabel
  have hsize := size_build d initial n es sinkLabel
  have hfiled := size_fileEdges n es
  have hlast := (List.forall₂_iff_get.mp hstored).2 n (by simp [hfiled]) (by simp [hsize])
  simp [List.getElem_append_right, hfiled] at hlast
  rw [Array.getElem?_eq_getElem (by omega), hlast]

theorem query?_sink_build (v : Valuation) :
    Automaton.query? (build d initial n es sinkLabel) v (build d initial n es sinkLabel).sink.state =
      some (build d initial n es sinkLabel, [(build d initial n es sinkLabel).sink]) := by
  have hstep : (build d initial n es sinkLabel).query? v n = some [(build d initial n es sinkLabel).sink] := by
    rw [query?, getElem?_sink_build]
    rfl
  have hstate : (build d initial n es sinkLabel).sink.state = n := rfl
  rw [hstate]
  simp [Automaton.query?, hstep]

end Sink

/-- Unless there is no room for the states, a text with one start gives an automaton whose sink is never left.
The step to it has marks in order that are rejected exactly if some marks are rejected at all and, with more
acceptance sets than the search goes through, no marks or all marks are; if with so many sets both of these are
accepted, the step has no marks. -/
theorem sink_rejects_iff {source : String} {d : Description} {q : Nat} (hread : Hoa.read source = .ok d)
    (hstart : d.start = [q]) :
    (stateLimit < d.stateCount ∧ withMarks d = .error .capacity) ∨
      d.stateCount ≤ stateLimit ∧ ∃ a marks, withMarks d = .ok a ∧
        Automaton.label? a a.sink.label = some marks ∧ MarksIn d.acceptanceSets marks ∧
        (d.acceptance.Rejects marks ↔ d.acceptance.CanReject d.acceptanceSets ∧
          (RejectsAtOnce d ∨ d.acceptanceSets ≤ searchLimit)) ∧
        (¬ RejectsAtOnce d → searchLimit < d.acceptanceSets → marks = []) ∧
        ∀ v, Automaton.query? a v a.sink.state = some (a, [a.sink]) := by
  rcases withMarks_cases d with ⟨q', -, hroom, h⟩ | ⟨hlen, -⟩ | ⟨hlimit, h⟩
  · refine Or.inr ⟨hroom, _, rejectingMarks d, h, ?_, marksIn_rejectingMarks d, ?_, rejectingMarks_eq_nil, ?_⟩
    · exact label_sink_build d q' d.stateCount (withMarkLabels d.markedEdges) (rejectingMarks d)
    · exact rejects_rejectingMarks_iff (Hoa.wellFormed_of_read hread)
    · exact query?_sink_build d q' d.stateCount (withMarkLabels d.markedEdges) (rejectingMarks d)
  · simp [hstart] at hlen
  · exact Or.inl ⟨hlimit, h⟩

end ExplicitAutomaton

namespace Hoa

/-- Accepts no marks and all marks, and rejects the first mark alone. -/
def choosy : String :=
  "HOA: v1\nStates: 1\nStart: 0\nAP: 1 \"a\"\nAcceptance: 2 Fin(0) | Inf(1)\n--BODY--\n" ++
    "State: 0\n[0] 0\n--END--\n"

/-- The same condition on one acceptance set more than the search goes through. -/
def roomy : String :=
  "HOA: v1\nStates: 1\nStart: 0\nAP: 1 \"a\"\nAcceptance: 17 Fin(0) | Inf(1)\n--BODY--\n" ++
    "State: 0\n[0] 0\n--END--\n"

end Hoa

namespace ExplicitAutomaton

theorem sink_choosy_rejects : ∃ d a marks, Hoa.read Hoa.choosy = .ok d ∧ d.start = [0] ∧
    ¬ RejectsAtOnce d ∧ withMarks d = .ok a ∧ Automaton.label? a a.sink.label = some marks ∧
    d.acceptance.Rejects marks ∧ ∀ v, Automaton.query? a v a.sink.state = some (a, [a.sink]) := by
  have hrun : ((Hoa.read Hoa.choosy).toOption.map fun d => (d.stateCount, d.start, d.acceptanceSets,
      decide (RejectsAtOnce d), decide (d.acceptance.Rejects [0]))) = some (1, [0], 2, false, true) := by
    decide +kernel
  obtain ⟨d, hd, hrun⟩ := Option.map_eq_some_iff.mp hrun
  simp only [Prod.mk.injEq, decide_eq_false_iff_not, decide_eq_true_eq] at hrun
  obtain ⟨hcount, hstart, hsets, hlater, hfirst⟩ := hrun
  have hcan : d.acceptance.CanReject d.acceptanceSets := ⟨[0], by simp [hsets], hfirst⟩
  rcases sink_rejects_iff (eq_ok_of_toOption hd) hstart with
    ⟨hlimit, -⟩ | ⟨-, a, marks, ha, hlabel, -, hiff, -, hsink⟩
  · rw [hcount] at hlimit
    exact absurd hlimit (by decide)
  · have hsearch : d.acceptanceSets ≤ searchLimit := by rw [hsets]; decide
    exact ⟨d, a, marks, eq_ok_of_toOption hd, hstart, hlater, ha, hlabel, hiff.mpr ⟨hcan, Or.inr hsearch⟩, hsink⟩

/-- The step to the sink has no marks, which are accepted, although other marks are not. -/
theorem sink_roomy_not_rejects : ∃ d a, Hoa.read Hoa.roomy = .ok d ∧ d.start = [0] ∧
    d.acceptance.CanReject d.acceptanceSets ∧ withMarks d = .ok a ∧
    Automaton.label? a a.sink.label = some [] ∧ ¬ d.acceptance.Rejects [] := by
  have hrun : ((Hoa.read Hoa.roomy).toOption.bind fun d => (withMarks d).toOption.map fun a =>
      (d.start, d.acceptanceSets, decide (d.acceptance.Rejects [0]), decide (d.acceptance.Rejects []),
        Automaton.label? a a.sink.label)) = some ([0], 17, true, false, some []) := by decide +kernel
  obtain ⟨d, hd, hrun⟩ := Option.bind_eq_some_iff.mp hrun
  obtain ⟨a, ha, hrun⟩ := Option.map_eq_some_iff.mp hrun
  simp only [Prod.mk.injEq, decide_eq_false_iff_not, decide_eq_true_eq] at hrun
  obtain ⟨hstart, hsets, hfirst, hnone, hlabel⟩ := hrun
  have hcan : d.acceptance.CanReject d.acceptanceSets := ⟨[0], by simp [hsets], hfirst⟩
  exact ⟨d, a, eq_ok_of_toOption hd, hstart, hcan, eq_ok_of_toOption ha, hlabel, hnone⟩

end ExplicitAutomaton

end OmegaGames
