import Mathlib.Algebra.Ring.Parity
import OmegaGames.Automaton.Parity

/-!
# Priorities in place of colors

A parity condition looks at the least or at the greatest color that is seen again and again, and favors the
even or the odd ones. The priority of an edge only depends on its own decisive color. The more a color
counts, the lower is its priority, and edges without color come last, so the least priority among any edges
is that of the color which decides among all their colors. It is even exactly if the condition accepts.
-/
namespace OmegaGames

namespace ParityCondition

variable {greatest even : Bool} {colors : Nat} {marks seen : List Nat} {run : List (List Nat)}

/-! ## Decisive colors -/

def decisive (greatest : Bool) (seen : List Nat) : Option Nat :=
  if greatest then seen.max? else seen.min?

/-- Whether a parity condition accepts the colors that are seen again and again. If there are none, the
number of colors counts as the least of them, and the greatest of them counts as odd. -/
def acceptsColors (greatest even : Bool) (colors : Nat) (seen : List Nat) : Bool :=
  match decisive greatest seen with
  | some c => (c % 2 == 0) == even
  | none => if greatest then !even else (colors % 2 == 0) == even

def Outranks (greatest : Bool) (c c' : Nat) : Prop := if greatest then c' ≤ c else c ≤ c'

theorem decisive_eq_some_iff {c : Nat} :
    decisive greatest seen = some c ↔ c ∈ seen ∧ ∀ c' ∈ seen, Outranks greatest c c' := by
  cases greatest with
  | true => exact List.max?_eq_some_iff
  | false => exact List.min?_eq_some_iff

theorem decisive_eq_none_iff : decisive greatest seen = none ↔ seen = [] := by
  cases greatest with
  | true => exact List.max?_eq_none_iff
  | false => exact List.min?_eq_none_iff

theorem getLast?_eq_max? (hs : marks.Pairwise (· < ·)) : marks.getLast? = marks.max? := by
  cases hlast : marks.getLast? with
  | none =>
    rw [List.getLast?_eq_none_iff] at hlast
    rw [hlast]
    rfl
  | some c =>
    obtain ⟨rest, rfl⟩ := List.getLast?_eq_some_iff.mp hlast
    refine (List.max?_eq_some_iff.mpr ⟨by simp, fun b hb => ?_⟩).symm
    rcases List.mem_append.mp hb with hb | hb
    · exact Nat.le_of_lt ((List.pairwise_append.mp hs).2.2 b hb c (by simp))
    · exact Nat.le_of_eq (List.mem_singleton.mp hb)

/-- The color that decides among all colors is that of some edge. -/
theorem exists_decisive_eq (greatest : Bool) (hrun : run ≠ []) :
    ∃ marks ∈ run, decisive greatest marks = decisive greatest run.flatten := by
  cases hall : decisive greatest run.flatten with
  | none =>
    obtain ⟨marks, hmarks⟩ := List.exists_mem_of_ne_nil run hrun
    refine ⟨marks, hmarks, decisive_eq_none_iff.mpr ?_⟩
    exact List.flatten_eq_nil_iff.mp (decisive_eq_none_iff.mp hall) marks hmarks
  | some c =>
    obtain ⟨hc, hrank⟩ := decisive_eq_some_iff.mp hall
    obtain ⟨marks, hmarks, hcm⟩ := List.mem_flatten.mp hc
    refine ⟨marks, hmarks, decisive_eq_some_iff.mpr ⟨hcm, fun c' hc' => ?_⟩⟩
    exact hrank c' (List.mem_flatten.mpr ⟨marks, hmarks, hc'⟩)

/-! ## Priorities -/

/-- The bound from which priorities count down. -/
def ceiling (even : Bool) (colors : Nat) : Nat :=
  if even then (if colors % 2 = 0 then colors + 1 else colors) else colors + colors % 2

theorem le_ceiling (even : Bool) (colors : Nat) : colors ≤ ceiling even colors := by
  unfold ceiling
  split
  · split <;> omega
  · omega

theorem even_ceiling_iff (even : Bool) (colors : Nat) : Even (ceiling even colors) ↔ even = false := by
  rw [Nat.even_iff]
  cases even with
  | true =>
    simp only [ceiling, if_true]
    split <;> simp <;> omega
  | false =>
    simp only [ceiling, Bool.false_eq_true, if_false, iff_true]
    omega

def decisivePriority (greatest even : Bool) (colors : Nat) : Option Nat → Nat
  | some c => if greatest then ceiling even colors - (c + 1) else if even then c else c + 1
  | none => if greatest then ceiling even colors else if even then colors else colors + 1

theorem colorPriority?_eq (hs : marks.Pairwise (· < ·)) (hb : ∀ c ∈ marks, c < colors) :
    colorPriority? greatest even colors marks =
      some (decisivePriority greatest even colors (decisive greatest marks)) := by
  have hceiling := le_ceiling even colors
  cases greatest with
  | true =>
    simp only [colorPriority?, if_true, getLast?_eq_max? hs, decisive]
    cases hmax : marks.max? with
    | none => exact if_pos (Nat.zero_le _)
    | some c => exact if_pos (Nat.le_trans (hb c (List.max?_mem hmax)) hceiling)
  | false =>
    have hmin : marks.head? = marks.min? :=
      (List.min?_eq_head? (hs.imp fun h => Nat.min_eq_left (Nat.le_of_lt h))).symm
    simp only [colorPriority?, Bool.false_eq_true, if_false, hmin, decisive]
    cases marks.min? with
    | none => rfl
    | some c => rfl

theorem decisivePriority_le_of_outranks {c c' : Nat} (h : Outranks greatest c c') :
    decisivePriority greatest even colors (some c) ≤ decisivePriority greatest even colors (some c') := by
  cases greatest with
  | true =>
    have hle : c' ≤ c := h
    simp only [decisivePriority, if_true]
    omega
  | false =>
    have hle : c ≤ c' := h
    simp only [decisivePriority, Bool.false_eq_true, if_false]
    split <;> omega

theorem decisivePriority_le_none {c : Nat} (hc : c < colors) :
    decisivePriority greatest even colors (some c) ≤ decisivePriority greatest even colors none := by
  cases greatest with
  | true => exact Nat.sub_le _ _
  | false =>
    simp only [decisivePriority, Bool.false_eq_true, if_false]
    split <;> omega

/-- No edge has a lower priority than the color that decides among all colors. -/
theorem decisivePriority_flatten_le (hb : ∀ marks ∈ run, ∀ c ∈ marks, c < colors) (hm : marks ∈ run) :
    decisivePriority greatest even colors (decisive greatest run.flatten) ≤
      decisivePriority greatest even colors (decisive greatest marks) := by
  cases hall : decisive greatest run.flatten with
  | none =>
    have hnil := List.flatten_eq_nil_iff.mp (decisive_eq_none_iff.mp hall) marks hm
    rw [decisive_eq_none_iff.mpr hnil]
  | some c =>
    obtain ⟨hc, hrank⟩ := decisive_eq_some_iff.mp hall
    cases hown : decisive greatest marks with
    | none =>
      obtain ⟨marks', hm', hcm⟩ := List.mem_flatten.mp hc
      exact decisivePriority_le_none (hb marks' hm' c hcm)
    | some c' =>
      have hc' := (decisive_eq_some_iff.mp hown).1
      exact decisivePriority_le_of_outranks (hrank c' (List.mem_flatten.mpr ⟨marks, hm, hc'⟩))

theorem favored_iff {c : Nat} : ((c % 2 == 0) == even) = true ↔ (Even c ↔ even = true) := by
  rw [Nat.even_iff]
  cases even <;> simp

theorem even_shift_iff {c : Nat} : Even (if even then c else c + 1) ↔ (Even c ↔ even = true) := by
  cases even <;> simp [Nat.even_add_one]

/-- The priority of the decisive color is even exactly if the condition accepts. -/
theorem even_decisivePriority_iff (hb : ∀ c ∈ seen, c < colors) :
    Even (decisivePriority greatest even colors (decisive greatest seen)) ↔
      acceptsColors greatest even colors seen = true := by
  have heven := even_ceiling_iff even colors
  rw [acceptsColors]
  cases hd : decisive greatest seen with
  | none =>
    cases greatest with
    | true => simpa [decisivePriority] using heven
    | false =>
      simp only [decisivePriority, Bool.false_eq_true, if_false]
      rw [even_shift_iff, favored_iff]
  | some c =>
    have hc : c + 1 ≤ ceiling even colors :=
      Nat.le_trans (hb c (decisive_eq_some_iff.mp hd).1) (le_ceiling even colors)
    cases greatest with
    | true =>
      simp only [decisivePriority, if_true]
      rw [Nat.even_sub hc, heven, favored_iff, Nat.even_add_one]
      cases even <;> simp
    | false =>
      simp only [decisivePriority, Bool.false_eq_true, if_false]
      rw [even_shift_iff, favored_iff]

/-! ## Named conditions -/

theorem ofDescription_of_name {d : Description} {text : String}
    (hname : d.accName =
      ["parity", if greatest then "max" else "min", if even then "even" else "odd", text])
    (hcolors : Text.readNumeral? Text.halfWordLimit text.toList = some colors) :
    ofDescription d = .ok (parity greatest even colors) := by
  rw [ofDescription, hname]
  cases greatest <;> cases even <;> simp [ofName?, hcolors]

/-- A condition that is named `parity min|max even|odd N`, whatever its formula is, is taken for the parity
condition with `N` colors. Every edge whose marks are increasing and below `N` gets a priority, and among any
such edges, those seen infinitely often, the least priority is even exactly if the condition accepts all their
colors together. -/
theorem parity_least_even_iff (greatest even : Bool) {d : Description} {text : String} {colors : Nat}
    (hname : d.accName =
      ["parity", if greatest then "max" else "min", if even then "even" else "odd", text])
    (hcolors : Text.readNumeral? Text.halfWordLimit text.toList = some colors) {run : List (List Nat)}
    (hrun : run ≠ []) (hsorted : ∀ marks ∈ run, marks.Pairwise (· < ·))
    (hbelow : ∀ marks ∈ run, ∀ c ∈ marks, c < colors) :
    ∃ (c : ParityCondition) (priorities : List Nat) (least : Nat), ofDescription d = .ok c ∧
      run.map (fun marks => c.priority? marks) = priorities.map some ∧ priorities.min? = some least ∧
      (Even least ↔ acceptsColors greatest even colors run.flatten = true) := by
  let level := fun marks => decisivePriority greatest even colors (decisive greatest marks)
  have hbelow' : ∀ c ∈ run.flatten, c < colors := by
    intro c hc
    obtain ⟨marks, hm, hcm⟩ := List.mem_flatten.mp hc
    exact hbelow marks hm c hcm
  refine ⟨parity greatest even colors, run.map level, level run.flatten,
    ofDescription_of_name hname hcolors, ?_, ?_, even_decisivePriority_iff hbelow'⟩
  · rw [List.map_map]
    exact List.map_congr_left fun marks hm => colorPriority?_eq (hsorted marks hm) (hbelow marks hm)
  · obtain ⟨marks, hm, heq⟩ := exists_decisive_eq greatest hrun
    refine List.min?_eq_some_iff.mpr ⟨List.mem_map.mpr ⟨marks, hm, ?_⟩, fun p hp => ?_⟩
    · exact congrArg (decisivePriority greatest even colors) heq
    · obtain ⟨marks', hm', rfl⟩ := List.mem_map.mp hp
      exact decisivePriority_flatten_le hbelow hm'

end ParityCondition

/-- An automaton whose condition is that the greatest of four colors is even. -/
def Description.colored : Description :=
  { name := none, stateCount := 1, start := [0], aps := [], accName := ["parity", "max", "even", "4"],
    acceptanceSets := 4, acceptance := .always, properties := [], other := [], states := [] }

/-- Of an edge with colors 0 and 2, one with color 3 and one without color, the second has the least priority. -/
theorem ParityCondition.colored_least_even_iff :
    Text.readNumeral? Text.halfWordLimit "4".toList = some 4 ∧
      (∀ marks ∈ [[0, 2], [3], []], marks.Pairwise (· < ·)) ∧
      (∀ marks ∈ [[0, 2], [3], []], ∀ c ∈ marks, c < 4) ∧
      acceptsColors true true 4 [0, 2, 3] = false ∧
      ∃ (c : ParityCondition) (priorities : List Nat) (least : Nat), ofDescription .colored = .ok c ∧
        [[0, 2], [3], []].map (fun marks => c.priority? marks) = priorities.map some ∧
        priorities.min? = some least ∧ (Even least ↔ acceptsColors true true 4 [0, 2, 3] = true) :=
  ⟨by decide +kernel, by decide, by decide, by decide,
    parity_least_even_iff true true rfl (by decide +kernel) (by simp) (by decide) (by decide)⟩

end OmegaGames
