import OmegaGames.Proofs.ColorPriorities
import OmegaGames.Proofs.Relabelling
import OmegaGames.Proofs.WellFormedDescriptions

/-!
# Colors beyond those that a name declares

Counting down from the greatest color starts at a bound, which comes from the number in the name of the
condition. The marks are checked against another number, that of the acceptance sets, and nothing ties the
two together. Priorities therefore exist exactly if no edge has a mark from the bound on, which is sure as
long as there are no more acceptance sets than the bound says.
-/
namespace OmegaGames

open ParityCondition

/-- How much marks count if the greatest of them decides: one more than the greatest, and zero for none. -/
def colorRank (marks : List Nat) : Nat := marks.max?.elim 0 (· + 1)

theorem colorRank_le_iff {marks : List Nat} {b : Nat} : colorRank marks ≤ b ↔ ∀ m ∈ marks, m < b := by
  rw [colorRank]
  cases hmax : marks.max? with
  | none =>
    rw [List.max?_eq_none_iff] at hmax
    simp [hmax]
  | some c =>
    obtain ⟨hc, hle⟩ := List.max?_eq_some_iff.mp hmax
    rw [Option.elim_some]
    constructor
    · intro h m hm
      have hmc := hle m hm
      omega
    · intro h
      exact h c hc

theorem colorRank_congr {marks marks' : List Nat} (h : ∀ m, m ∈ marks ↔ m ∈ marks') :
    colorRank marks = colorRank marks' := by
  apply Nat.le_antisymm
  · rw [colorRank_le_iff]
    intro m hm
    exact colorRank_le_iff.mp (Nat.le_refl _) m ((h m).mp hm)
  · rw [colorRank_le_iff]
    intro m hm
    exact colorRank_le_iff.mp (Nat.le_refl _) m ((h m).mpr hm)

theorem ParityCondition.colorPriority?_greatest {even : Bool} {colors : Nat} {marks : List Nat}
    (hs : marks.Pairwise (· < ·)) :
    colorPriority? true even colors marks =
      if colorRank marks ≤ ceiling even colors then some (ceiling even colors - colorRank marks) else none := by
  cases hmax : marks.max? with
  | none => simp only [colorPriority?, getLast?_eq_max? hs, hmax, colorRank, ceiling, if_true, Option.elim_none]
  | some c => simp only [colorPriority?, getLast?_eq_max? hs, hmax, colorRank, ceiling, if_true, Option.elim_some]

namespace Description

/-- No edge, by itself or through its state, has a mark from the bound of the declared colors on. -/
def WithinColors (d : Description) (even : Bool) (colors : Nat) : Prop :=
  ∀ s ∈ d.states, ∀ e ∈ s.edges, colorRank (s.marks ++ e.marks) ≤ ceiling even colors

theorem withinColors_iff {d : Description} {even : Bool} {colors : Nat} :
    d.WithinColors even colors ↔ ∀ e ∈ d.markedEdges, colorRank e.marks ≤ ceiling even colors := by
  have hrank : ∀ marks : List Nat, colorRank (sortMarks marks) = colorRank marks :=
    fun marks => colorRank_congr fun m => mem_sortMarks
  constructor
  · intro h e he
    obtain ⟨s, hs, he⟩ := List.mem_flatMap.mp he
    obtain ⟨e', he', rfl⟩ := List.mem_map.mp he
    rw [hrank]
    exact h s hs e' he'
  · intro h s hs e he
    have hmem : (⟨s.id, e.guard, e.target, sortMarks (s.marks ++ e.marks)⟩ : MarkedEdge) ∈ d.markedEdges :=
      List.mem_flatMap.mpr ⟨s, hs, List.mem_map.mpr ⟨e, he, rfl⟩⟩
    rw [← hrank]
    exact h _ hmem

/-- As many acceptance sets as the bound allows for are never too many. -/
theorem WellFormed.withinColors {d : Description} (hd : d.WellFormed) {even : Bool} {colors : Nat}
    (h : d.acceptanceSets ≤ ceiling even colors) : d.WithinColors even colors := by
  intro s hs e he
  rw [colorRank_le_iff]
  intro m hm
  rcases List.mem_append.mp hm with hm | hm
  · exact Nat.lt_of_lt_of_le ((hd.stateMarks s hs).2 m hm) h
  · exact Nat.lt_of_lt_of_le ((hd.edgeMarks s hs e he).2 m hm) h

theorem pairwise_of_mem_markedEdges {d : Description} {e : MarkedEdge} (he : e ∈ d.markedEdges) :
    e.marks.Pairwise (· < ·) := by
  obtain ⟨s, -, he⟩ := List.mem_flatMap.mp he
  obtain ⟨e', -, rfl⟩ := List.mem_map.mp he
  exact pairwise_sortMarks _

end Description

namespace ExplicitAutomaton

variable {d : Description} {even : Bool} {colors : Nat}

def countedDown (d : Description) (even : Bool) (colors : Nat) : List (LabelledEdge Nat) :=
  withPriorities (fun marks => ceiling even colors - colorRank marks) d.markedEdges

theorem relabel_of_withinColors (h : d.WithinColors even colors) :
    relabel (.parity true even colors) d.markedEdges = .ok (countedDown d even colors) := by
  apply relabel_eq_ok_of_mem
  intro e he
  have hrank := Description.withinColors_iff.mp h e he
  rw [priority?, colorPriority?_greatest (Description.pairwise_of_mem_markedEdges he), if_pos hrank]

theorem relabel_of_not_withinColors (h : ¬ d.WithinColors even colors) :
    relabel (.parity true even colors) d.markedEdges = .error .undeclaredColor := by
  rw [Description.withinColors_iff] at h
  push Not at h
  obtain ⟨e, he, hrank⟩ := h
  apply relabel_eq_error he
  rw [priority?, colorPriority?_greatest (Description.pairwise_of_mem_markedEdges he),
    if_neg (Nat.not_le.mpr hrank)]

theorem parity_of_greatest {q : Nat} (hstart : d.start = [q])
    (hc : ofDescription d = .ok (.parity true even colors)) :
    (stateLimit < d.stateCount ∧ parity d = .error .capacity) ∨
      (d.stateCount ≤ stateLimit ∧ d.WithinColors even colors ∧
        parity d = .ok (build d q d.stateCount (countedDown d even colors) 1)) ∨
      (d.stateCount ≤ stateLimit ∧ ¬ d.WithinColors even colors ∧ parity d = .error .undeclaredColor) := by
  rw [parity, initialState_eq_ok_iff.mpr hstart, hc]
  by_cases hroom : d.stateCount ≤ stateLimit
  · have hcheck : checkStateCount d.stateCount = .ok () := checkStateCount_eq_ok_iff.mpr hroom
    apply Or.inr
    by_cases hwithin : d.WithinColors even colors
    · refine Or.inl ⟨hroom, hwithin, ?_⟩
      simp only [bind, Except.bind, hcheck, relabel_of_withinColors hwithin]
      rfl
    · refine Or.inr ⟨hroom, hwithin, ?_⟩
      simp only [bind, Except.bind, hcheck, relabel_of_not_withinColors hwithin]
  · have hlimit : stateLimit < d.stateCount := Nat.lt_of_not_le hroom
    refine Or.inl ⟨hlimit, ?_⟩
    simp only [bind, Except.bind, checkStateCount, if_pos hlimit]

/-- A stored edge keeps guard and target of the described one, and its priority and the rank of its marks add
up to the bound. -/
def CountsDown (even : Bool) (colors : Nat) (a : ExplicitAutomaton Nat) (e : OutgoingEdge) (g : GuardedEdge) :
    Prop :=
  g.guard = e.edge.guard ∧ g.target = e.edge.target ∧
    ∃ p, a.labels.get? g.label = some p ∧ p + colorRank (e.state.marks ++ e.edge.marks) = ceiling even colors

theorem forall₂_countedDown (q₀ : Nat) (h : d.WithinColors even colors) {q : Nat} (hq : q < d.stateCount) :
    List.Forall₂ (CountsDown even colors (build d q₀ d.stateCount (countedDown d even colors) 1))
      (d.edgesFrom q) ((build d q₀ d.stateCount (countedDown d even colors) 1).edgesFrom q) := by
  have hwithin : ∀ e ∈ d.edgesFrom q, colorRank (e.state.marks ++ e.edge.marks) ≤ ceiling even colors := by
    intro e he
    obtain ⟨hs, -, hmem⟩ := Description.mem_edgesFrom.mp he
    exact h e.state hs e.edge hmem
  have hstands := forall₂_edgesFrom_withPriorities d q₀ (fun marks => ceiling even colors - colorRank marks) hq
  apply List.Forall₂.imp _ ((List.forall₂_and_left _ _).mpr ⟨hwithin, hstands⟩)
  rintro e g ⟨hle, hg⟩
  refine ⟨hg.guard, hg.target, _, hg.label, ?_⟩
  have hrank : colorRank e.marked.marks = colorRank (e.state.marks ++ e.edge.marks) :=
    colorRank_congr fun m => mem_sortMarks
  rw [hrank]
  exact Nat.sub_add_cancel hle

/-- If a name says that the greatest of so many colors decides, priorities are found, provided there is room for
the states, exactly if no edge has a mark from the bound on. Otherwise it is the colors that fail. The bound is
never passed if there are no more acceptance sets than it says. -/
theorem parity_greatest_iff_withinColors (even : Bool) {source text : String} {d : Description} {q colors : Nat}
    (hread : Hoa.read source = .ok d) (hstart : d.start = [q])
    (hname : d.accName = ["parity", "max", if even then "even" else "odd", text])
    (hcolors : Text.readNumeral? Text.halfWordLimit text.toList = some colors) :
    ((∃ a, parity d = .ok a) ↔ d.stateCount ≤ stateLimit ∧ d.WithinColors even colors) ∧
      (parity d = .error .undeclaredColor ↔ d.stateCount ≤ stateLimit ∧ ¬ d.WithinColors even colors) ∧
      (∀ a, parity d = .ok a → ∀ q < d.stateCount,
        List.Forall₂ (CountsDown even colors a) (d.edgesFrom q) (a.edgesFrom q)) ∧
      (d.acceptanceSets ≤ ceiling even colors → d.WithinColors even colors) := by
  have hc : ofDescription d = .ok (.parity true even colors) := ofDescription_of_name hname hcolors
  have hsets : d.acceptanceSets ≤ ceiling even colors → d.WithinColors even colors :=
    (Hoa.wellFormed_of_read hread).withinColors
  rcases parity_of_greatest hstart hc with ⟨hroom, h⟩ | ⟨hroom, hwithin, h⟩ | ⟨hroom, hwithin, h⟩
  · have hfull : ¬ d.stateCount ≤ stateLimit := Nat.not_le.mpr hroom
    exact ⟨by simp [h, hfull], by simp [h, hfull], by simp [h], hsets⟩
  · refine ⟨by simp [h, hroom, hwithin], by simp [h, hwithin], ?_, hsets⟩
    intro a ha q' hq'
    cases h.symm.trans ha
    exact forall₂_countedDown q hwithin hq'
  · exact ⟨by simp [h, hwithin], by simp [h, hroom, hwithin], by simp [h], hsets⟩

end ExplicitAutomaton

namespace Hoa

/-- Three acceptance sets under a name that declares two colors; the bound is three. -/
def understated : String :=
  "HOA: v1\nStates: 2\nStart: 0\nAP: 1 \"a\"\nacc-name: parity max even 2\n" ++
    "Acceptance: 3 Inf(2) | (Fin(1) & Inf(0))\n--BODY--\n" ++
    "State: 0 \x7b1\x7d\n[0] 1 \x7b2\x7d\n[!0] 0\nState: 1\n[t] 0\n--END--\n"

/-- The same acceptance sets under a name that declares one color only. -/
def overstepped : String :=
  "HOA: v1\nStates: 1\nStart: 0\nAP: 1 \"a\"\nacc-name: parity max even 1\n" ++
    "Acceptance: 3 Inf(2) | (Fin(1) & Inf(0))\n--BODY--\nState: 0\n[0] 0 \x7b2\x7d\n[!0] 0\n--END--\n"

end Hoa

namespace ExplicitAutomaton

theorem parity_understated_iff_withinColors : ∃ d a, Hoa.read Hoa.understated = .ok d ∧ d.start = [0] ∧
    d.accName = ["parity", "max", "even", "2"] ∧
    Text.readNumeral? Text.halfWordLimit "2".toList = some 2 ∧
    d.acceptanceSets = 3 ∧ d.WithinColors true 2 ∧ parity d = .ok a ∧
    ∀ q < 2, List.Forall₂ (CountsDown true 2 a) (d.edgesFrom q) (a.edgesFrom q) := by
  have hrun : ((Hoa.read Hoa.understated).toOption.map fun d =>
      (d.stateCount, d.start, d.accName, d.acceptanceSets)) =
      some (2, [0], ["parity", "max", "even", "2"], 3) := by decide +kernel
  obtain ⟨d, hd, hrun⟩ := Option.map_eq_some_iff.mp hrun
  simp only [Prod.mk.injEq] at hrun
  obtain ⟨hcount, hstart, hname, hsets⟩ := hrun
  have hcolors : Text.readNumeral? Text.halfWordLimit "2".toList = some 2 := by decide +kernel
  obtain ⟨hiff, -, hdown, hwithin⟩ :=
    parity_greatest_iff_withinColors true (eq_ok_of_toOption hd) hstart hname hcolors
  have hfits : d.WithinColors true 2 := hwithin (by rw [hsets]; decide)
  obtain ⟨a, ha⟩ := hiff.mpr ⟨by rw [hcount]; decide, hfits⟩
  rw [hcount] at hdown
  exact ⟨d, a, eq_ok_of_toOption hd, hstart, hname, hcolors, hsets, hfits, ha, hdown a ha⟩

/-- The mark of an edge that has been read without fault counts more than the bound. -/
theorem parity_overstepped_not_withinColors : ∃ d, Hoa.read Hoa.overstepped = .ok d ∧ d.start = [0] ∧
    d.accName = ["parity", "max", "even", "1"] ∧
    Text.readNumeral? Text.halfWordLimit "1".toList = some 1 ∧ ¬ d.WithinColors true 1 ∧
    parity d = .error .undeclaredColor := by
  have hrun : ((Hoa.read Hoa.overstepped).toOption.map fun d =>
      (d.stateCount, d.start, d.accName, d.markedEdges.map (·.marks))) =
      some (1, [0], ["parity", "max", "even", "1"], [[2], []]) := by decide +kernel
  obtain ⟨d, hd, hrun⟩ := Option.map_eq_some_iff.mp hrun
  simp only [Prod.mk.injEq] at hrun
  obtain ⟨hcount, hstart, hname, hmarks⟩ := hrun
  have hcolors : Text.readNumeral? Text.halfWordLimit "1".toList = some 1 := by decide +kernel
  have hbeyond : ¬ d.WithinColors true 1 := by
    rw [Description.withinColors_iff]
    intro h
    have hranks : ∀ marks ∈ d.markedEdges.map (·.marks), colorRank marks ≤ ceiling true 1 := by
      simpa using h
    rw [hmarks] at hranks
    exact absurd (hranks [2] (by simp)) (by decide)
  refine ⟨d, eq_ok_of_toOption hd, hstart, hname, hcolors, hbeyond, ?_⟩
  have hc : ofDescription d = .ok (.parity true true 1) := ofDescription_of_name hname hcolors
  rcases parity_of_greatest hstart hc with ⟨hroom, -⟩ | ⟨-, hwithin, -⟩ | ⟨-, -, h⟩
  · rw [hcount] at hroom
    exact absurd hroom (by decide)
  · exact absurd hwithin hbeyond
  · exact h

end ExplicitAutomaton

end OmegaGames
