import OmegaGames.Proofs.DescribedAutomata
import Mathlib.Logic.Relation

/-!
# Descriptions that have been read

The checks of the reader stand in different places: propositions are checked edge by edge, states and
acceptance sets at the end, and marks are put in order where they are read. Together they make what has
been read well formed. Construction then finds a place for every edge, and a run of the automaton never
leaves its states and its labels.
-/
namespace OmegaGames

open Relation

/-! ## What conditions and guards mention -/

inductive Acceptance.Mentions (n : Nat) : Acceptance → Prop
  | inf : Mentions n (.inf n)
  | fin : Mentions n (.fin n)
  | and {cs : List Acceptance} {c : Acceptance} (hc : c ∈ cs) (h : Mentions n c) : Mentions n (.and cs)
  | or {cs : List Acceptance} {c : Acceptance} (hc : c ∈ cs) (h : Mentions n c) : Mentions n (.or cs)

theorem Acceptance.sets_subset_setsOfAll {c : Acceptance} {cs : List Acceptance} (h : c ∈ cs) :
    c.sets ⊆ setsOfAll cs := by
  induction cs with
  | nil => cases h
  | cons c' cs ih =>
    rw [setsOfAll]
    rcases List.mem_cons.mp h with rfl | h
    · exact List.subset_append_left _ _
    · exact List.subset_append_of_subset_right _ (ih h)

theorem Acceptance.Mentions.mem_sets {n : Nat} {a : Acceptance} (h : a.Mentions n) : n ∈ a.sets := by
  induction h with
  | inf => exact List.mem_singleton_self n
  | fin => exact List.mem_singleton_self n
  | and hc _ ih => exact sets_subset_setsOfAll hc ih
  | or hc _ ih => exact sets_subset_setsOfAll hc ih

inductive Guard.Mentions (n : Nat) : Guard → Prop
  | ap : Mentions n (.ap n)
  | not {g : Guard} (h : Mentions n g) : Mentions n (.not g)
  | and {gs : List Guard} {g : Guard} (hg : g ∈ gs) (h : Mentions n g) : Mentions n (.and gs)
  | or {gs : List Guard} {g : Guard} (hg : g ∈ gs) (h : Mentions n g) : Mentions n (.or gs)

theorem Guard.aps_subset_apsOfAll {g : Guard} {gs : List Guard} (h : g ∈ gs) : g.aps ⊆ apsOfAll gs := by
  induction gs with
  | nil => cases h
  | cons g' gs ih =>
    rw [apsOfAll]
    rcases List.mem_cons.mp h with rfl | h
    · exact List.subset_append_left _ _
    · exact List.subset_append_of_subset_right _ (ih h)

theorem Guard.Mentions.mem_aps {n : Nat} {g : Guard} (h : g.Mentions n) : n ∈ g.aps := by
  induction h with
  | ap => exact List.mem_singleton_self n
  | not _ ih => exact ih
  | and hg _ ih => exact aps_subset_apsOfAll hg ih
  | or hg _ ih => exact aps_subset_apsOfAll hg ih

/-- To check the greatest number is to check all. -/
theorem lt_of_max?_lt {ns : List Nat} {b : Nat} (h : ∀ m, ns.max? = some m → m < b) : ∀ n ∈ ns, n < b := by
  intro n hn
  cases hmax : ns.max? with
  | none =>
    rw [List.max?_eq_none_iff.mp hmax] at hn
    cases hn
  | some m =>
    have hle : n ≤ m := (List.max?_eq_some_iff.mp hmax).2 n hn
    exact Nat.lt_of_le_of_lt hle (h m hmax)

/-! ## Marks in order -/

theorem pairwise_insertMark {m : Nat} {ms : List Nat} (h : ms.Pairwise (· < ·)) :
    (insertMark m ms).Pairwise (· < ·) := by
  induction ms with
  | nil => exact List.pairwise_singleton _ m
  | cons k ms ih =>
    obtain ⟨hk, hms⟩ := List.pairwise_cons.mp h
    rw [insertMark]
    split
    · rename_i hlt
      refine List.pairwise_cons.mpr ⟨?_, h⟩
      intro n hn
      rcases List.mem_cons.mp hn with rfl | hn
      · exact hlt
      · exact Nat.lt_trans hlt (hk n hn)
    · split
      · exact h
      · refine List.pairwise_cons.mpr ⟨?_, ih hms⟩
        intro n hn
        rcases mem_insertMark.mp hn with rfl | hn
        · omega
        · exact hk n hn

theorem pairwise_sortMarks (ms : List Nat) : (sortMarks ms).Pairwise (· < ·) := by
  induction ms with
  | nil => exact .nil
  | cons m ms ih => exact pairwise_insertMark ih

/-! ## The body -/

/-- What reading a line makes sure of for an edge over `apCount` propositions. -/
structure DescribedEdge.Read (apCount : Nat) (e : DescribedEdge) : Prop where
  marks : e.marks.Pairwise (· < ·)
  guard : ∀ n, e.guard.Mentions n → n < apCount

/-- What reading lines makes sure of for a state with its edges so far. -/
structure DescribedState.Read (apCount : Nat) (s : DescribedState) : Prop where
  marks : s.marks.Pairwise (· < ·)
  edges : ∀ e ∈ s.edges, e.Read apCount

namespace Hoa

theorem pairwise_of_splitMarks {text rest : List Char} {marks : List Nat}
    (h : splitMarks text = .ok (rest, marks)) : marks.Pairwise (· < ·) := by
  rw [splitMarks] at h
  split at h
  · cases h
    exact .nil
  · split at h
    · cases h
    · obtain ⟨ms, -, h⟩ := exists_of_bind_eq_ok h
      cases h
      exact pairwise_sortMarks ms

theorem read_of_readState {apCount : Nat} {text : List Char} {s : DescribedState}
    (h : readState text = .ok s) : s.Read apCount := by
  obtain ⟨⟨rest, marks⟩, hmarks, h⟩ := exists_of_bind_eq_ok h
  have hsorted := pairwise_of_splitMarks hmarks
  dsimp only at h
  split at h
  · cases h
  · split at h <;> cases h
    · exact ⟨hsorted, by simp⟩
    · exact ⟨hsorted, by simp⟩

theorem read_of_readEdge {apCount : Nat} {text : List Char} {e : DescribedEdge}
    (h : readEdge apCount text = .ok e) : e.Read apCount := by
  rw [readEdge] at h
  split at h <;> [skip; cases h]
  split at h <;> [skip; cases h]
  split at h <;> [skip; cases h]
  obtain ⟨⟨targetText, marks⟩, hmarks, h⟩ := exists_of_bind_eq_ok h
  have hsorted := pairwise_of_splitMarks hmarks
  dsimp only at h
  split at h <;> [cases h; skip]
  split at h <;> [skip; cases h]
  -- The greatest proposition of the guard has been compared, if there is one.
  split at h
  · rename_i greatest hgreatest
    split at h <;> cases h
    rename_i hlt
    refine ⟨hsorted, fun n hn => lt_of_max?_lt (fun m hm => ?_) n hn.mem_aps⟩
    rw [hgreatest, Option.some.injEq] at hm
    omega
  · rename_i hnone
    cases h
    refine ⟨hsorted, fun n hn => lt_of_max?_lt (fun m hm => ?_) n hn.mem_aps⟩
    rw [hnone] at hm
    cases hm

theorem read_of_addLine {apCount : Nat} {states states' : List DescribedState} {text : List Char}
    (hstates : ∀ s ∈ states, s.Read apCount) (h : addLine apCount states text = .ok states') :
    ∀ s ∈ states', s.Read apCount := by
  rw [addLine] at h
  split at h
  · obtain ⟨s, hs, h⟩ := exists_of_bind_eq_ok h
    cases h
    exact List.forall_mem_cons.mpr ⟨read_of_readState hs, hstates⟩
  · cases states with
    | nil => cases h
    | cons s states =>
      obtain ⟨e, he, h⟩ := exists_of_bind_eq_ok h
      cases h
      obtain ⟨hs, hrest⟩ := List.forall_mem_cons.mp hstates
      refine List.forall_mem_cons.mpr ⟨⟨hs.marks, ?_⟩, hrest⟩
      intro e' he'
      rcases List.mem_append.mp he' with hold | hnew
      · exact hs.edges e' hold
      · rw [List.mem_singleton.mp hnew]
        exact read_of_readEdge he

theorem read_of_readBody {apCount : Nat} {states result : List DescribedState} {lines : List NumberedLine}
    (hstates : ∀ s ∈ states, s.Read apCount) (h : readBody apCount states lines = .ok result) :
    ∀ s ∈ result, s.Read apCount := by
  induction lines generalizing states with
  | nil => cases h
  | cons numbered lines ih =>
    obtain ⟨line, text⟩ := numbered
    rw [readBody] at h
    split at h
    · exact ih hstates h
    · split at h
      · cases h
        simpa using hstates
      · split at h
        · cases h
        · split at h
          · cases h
          · rename_i hline
            exact ih (read_of_addLine hstates hline) h

end Hoa

/-! ## The whole -/

/-- Marks in increasing order, each of them an acceptance set. -/
def MarksIn (sets : Nat) (marks : List Nat) : Prop := marks.Pairwise (· < ·) ∧ ∀ m ∈ marks, m < sets

/-- A description that speaks of its own states, acceptance sets and propositions only. -/
structure Description.WellFormed (d : Description) : Prop extends d.InRange where
  stateMarks : ∀ s ∈ d.states, MarksIn d.acceptanceSets s.marks
  edgeMarks : ∀ s ∈ d.states, ∀ e ∈ s.edges, MarksIn d.acceptanceSets e.marks
  condition : ∀ n, d.acceptance.Mentions n → n < d.acceptanceSets
  guards : ∀ s ∈ d.states, ∀ e ∈ s.edges, ∀ n, e.guard.Mentions n → n < d.aps.length

namespace Hoa

theorem wellFormed_of_read {source : String} {d : Description} (h : read source = .ok d) :
    d.WellFormed := by
  obtain ⟨⟨rest, hbody⟩, hfault⟩ := exists_body_of_read h
  obtain ⟨-, hstate, hedge, hcondition⟩ := rangeFault?_eq_none_iff.mp hfault
  have hread : ∀ s ∈ d.states, s.Read d.aps.length := read_of_readBody (by simp) hbody
  refine { inRange_of_read h with stateMarks := ?_, edgeMarks := ?_, condition := ?_, guards := ?_ }
  · intro s hs
    exact ⟨(hread s hs).marks, hstate s hs⟩
  · intro s hs e he
    exact ⟨((hread s hs).edges e he).marks, hedge s hs e he⟩
  · intro n hn
    exact lt_of_max?_lt hcondition n hn.mem_sets
  · intro s hs e he
    exact ((hread s hs).edges e he).guard

end Hoa

/-! ## Construction -/

namespace ExplicitAutomaton

variable {L : Type}

def file? (t : Array (List (LabelledEdge L))) (e : LabelledEdge L) :
    Option (Array (List (LabelledEdge L))) :=
  if e.source < t.size then some (t.modify e.source (· ++ [e])) else none

/-- Files edges in turn; fails where there is no place for one. -/
def fileEdges? (n : Nat) (es : List (LabelledEdge L)) : Option (Array (List (LabelledEdge L))) :=
  es.foldlM file? (Array.replicate n [])

theorem fileEdges?_eq {n : Nat} {es : List (LabelledEdge L)} (h : ∀ e ∈ es, e.source < n) :
    fileEdges? n es = some (fileEdges n es) := by
  have hfold : ∀ t : Array (List (LabelledEdge L)), t.size = n →
      es.foldlM file? t = some (es.foldl (fun t e => t.modify e.source (· ++ [e])) t) := by
    induction es with
    | nil => exact fun t _ => rfl
    | cons e es ih =>
      intro t ht
      obtain ⟨he, hes⟩ := List.forall_mem_cons.mp h
      have hfile : file? t e = some (t.modify e.source (· ++ [e])) := if_pos (ht ▸ he)
      rw [List.foldlM_cons, hfile]
      exact ih hes _ (by rw [Array.size_modify, ht])
  exact hfold _ Array.size_replicate

def withMarkLabels (es : List MarkedEdge) : List (LabelledEdge (List Nat)) :=
  es.map fun e => ⟨e.source, e.guard, e.target, e.marks⟩

theorem source_lt_of_mem_withMarkLabels {d : Description} (hd : d.InRange) :
    ∀ e ∈ withMarkLabels d.markedEdges, e.source < d.stateCount := by
  intro e he
  obtain ⟨e', he', rfl⟩ := List.mem_map.mp he
  exact (hd.of_mem_markedEdges he').1

theorem initialState_eq_error {d : Description} (h : d.start.length ≠ 1) :
    initialState d = .error (.initialStates d.start.length) := by
  rw [initialState.eq_def]
  split
  · rename_i hstart
    simp [hstart] at h
  · rfl

theorem withMarks_cases (d : Description) :
    (∃ q, d.start = [q] ∧ d.stateCount ≤ stateLimit ∧
        withMarks d = .ok (build d q d.stateCount (withMarkLabels d.markedEdges) (rejectingMarks d))) ∨
      (d.start.length ≠ 1 ∧ withMarks d = .error (.initialStates d.start.length)) ∨
      (stateLimit < d.stateCount ∧ withMarks d = .error .capacity) := by
  by_cases hstart : d.start.length = 1
  · obtain ⟨q, hq⟩ := List.length_eq_one_iff.mp hstart
    rw [withMarks, initialState_eq_ok_iff.mpr hq]
    by_cases hroom : d.stateCount ≤ stateLimit
    · have hcheck : checkStateCount d.stateCount = .ok () := checkStateCount_eq_ok_iff.mpr hroom
      rw [hcheck]
      exact Or.inl ⟨q, hq, hroom, rfl⟩
    · have hlimit : stateLimit < d.stateCount := Nat.lt_of_not_le hroom
      rw [checkStateCount, if_pos hlimit]
      exact Or.inr (Or.inr ⟨hlimit, rfl⟩)
  · rw [withMarks, initialState_eq_error hstart]
    exact Or.inr (Or.inl ⟨hstart, rfl⟩)

theorem checkStateCount_ne_undeclaredColor (n : Nat) : checkStateCount n ≠ .error .undeclaredColor := by
  rw [checkStateCount]
  split <;> simp

theorem ofAcceptance_ne_undeclaredColor (c : Acceptance) :
    ParityCondition.ofAcceptance c ≠ .error .undeclaredColor := by
  intro h
  rw [ParityCondition.ofAcceptance.eq_def] at h
  dsimp only at h
  split at h <;> try cases h
  split at h <;> cases h

/-- Only colours that a name declares can fail to cover an edge, and formulas have no colours. -/
theorem parity_ne_undeclaredColor {d : Description}
    (h : ∀ order favored colors, d.accName ≠ ["parity", order, favored, colors]) :
    parity d ≠ .error .undeclaredColor := by
  intro herror
  rcases bind_eq_error herror with hinitial | ⟨q, -, herror⟩
  · rw [initialState.eq_def] at hinitial
    split at hinitial <;> cases hinitial
  · rw [ofDescription_eq h] at herror
    rcases bind_eq_error herror with hcondition | ⟨c, hc, herror⟩
    · exact ofAcceptance_ne_undeclaredColor _ hcondition
    · cases c with
      | parity greatest even colors =>
        exact ParityCondition.ofAcceptance_ne_parity _ greatest even colors hc
      | generalizedBuchi sets =>
        rcases bind_eq_error herror with hroom | ⟨u, -, herror⟩
        · exact checkStateCount_ne_undeclaredColor _ hroom
        · cases herror
      | _ =>
        rcases bind_eq_error herror with hroom | ⟨u, -, herror⟩
        · exact checkStateCount_ne_undeclaredColor _ hroom
        · rw [relabel_eq_ok (fun marks => rfl)] at herror
          cases herror

/-! ## Runs -/

section Runs

variable [DecidableEq L] {a : ExplicitAutomaton L}

/-- Some query at the first state leads to the second one. -/
def Moves (a : ExplicitAutomaton L) (q q' : Nat) : Prop :=
  ∃ v ts t, Automaton.query? a v q = some (a, ts) ∧ t ∈ ts ∧ t.state = q'

/-- Wherever queries lead to from the initial state, all queries are answered, and the answers name
states and labels that there are. -/
def Safe (a : ExplicitAutomaton L) : Prop :=
  ∀ q, ReflTransGen a.Moves (Automaton.initial a) q → q < Automaton.stateCount a ∧
    ∀ v, ∃ ts, Automaton.query? a v q = some (a, ts) ∧
      ∀ t ∈ ts, t.state < Automaton.stateCount a ∧ ∃ l, Automaton.label? a t.label = some l

structure Labelled (a : ExplicitAutomaton L) : Prop where
  edge : ∀ es ∈ a.edges.toList, ∀ e ∈ es, ∃ l, a.labels.get? e.label = some l
  sink : ∃ l, a.labels.get? a.sink.label = some l

theorem labelled_build (d : Description) (initial n : Nat) (es : List (LabelledEdge L)) (sinkLabel : L) :
    (build d initial n es sinkLabel).Labelled where
  edge gs hgs e he := by
    obtain ⟨e', -, hstands⟩ := exists_stands_of_mem hgs he
    exact ⟨e'.label, hstands.label⟩
  sink := ⟨sinkLabel, label_sink_build d initial n es sinkLabel⟩

/-- One query at a state of the automaton. -/
theorem Closed.exists_answer (ha : a.Closed) (hl : a.Labelled) {q : Nat} (hq : q < a.edges.size)
    (v : Valuation) : ∃ ts, Automaton.query? a v q = some (a, ts) ∧
      ∀ t ∈ ts, t.state < Automaton.stateCount a ∧ ∃ l, Automaton.label? a t.label = some l := by
  obtain ⟨ts, hts⟩ := exists_query? v hq
  refine ⟨ts, by simp [Automaton.query?, hts], ?_⟩
  intro t ht
  refine ⟨ha.state_lt hts t ht, ?_⟩
  rcases eq_of_mem_query? hts ht with rfl | ⟨es, hes, e, he, rfl⟩
  · exact hl.sink
  · exact hl.edge es hes e he

theorem Closed.moves_lt (ha : a.Closed) {q q' : Nat} (h : a.Moves q q') : q' < a.edges.size := by
  obtain ⟨v, ts, t, hquery, ht, rfl⟩ := h
  obtain ⟨ts', hts, hpair⟩ := Option.map_eq_some_iff.mp hquery
  cases hpair
  exact ha.state_lt hts t ht

theorem Closed.safe (ha : a.Closed) (hl : a.Labelled) : a.Safe := by
  intro q hq
  have hlt : q < a.edges.size := by
    induction hq with
    | refl => exact ha.initial_lt
    | tail _ hmove _ => exact ha.moves_lt hmove
  exact ⟨hlt, ha.exists_answer hl hlt⟩

end Runs

theorem safe_of_withMarks {d : Description} {a : ExplicitAutomaton (List Nat)} (hd : d.InRange)
    (h : withMarks d = .ok a) : a.Safe := by
  refine (closed_of_withMarks hd h).safe ?_
  rcases withMarks_cases d with ⟨q, -, -, hbuild⟩ | ⟨-, herror⟩ | ⟨-, herror⟩
  · rw [hbuild] at h
    cases h
    exact labelled_build ..
  · rw [herror] at h
    cases h
  · rw [herror] at h
    cases h

theorem safe_of_parity {d : Description} {a : ExplicitAutomaton Nat} (hd : d.InRange)
    (h : parity d = .ok a) : a.Safe := by
  refine (closed_of_parity hd h).safe ?_
  obtain ⟨q, c, -, -, ⟨sets, -, rfl⟩ | ⟨les, -, rfl⟩⟩ := parity_cases h
  · exact labelled_build ..
  · exact labelled_build ..

end ExplicitAutomaton

namespace Hoa

open ExplicitAutomaton

/-- What has been read is well formed. Keeping its marks therefore finds a place for every edge and fails
only for want of one initial state or of room, priorities only fail on colours that a name declares, and
the automata never leave their states and labels. -/
theorem wellFormed_and_safe_of_read {source : String} {d : Description} (h : read source = .ok d) :
    d.WellFormed ∧
      fileEdges? d.stateCount (withMarkLabels d.markedEdges) =
        some (fileEdges d.stateCount (withMarkLabels d.markedEdges)) ∧
      ((∃ q, d.start = [q] ∧ d.stateCount ≤ stateLimit ∧
          withMarks d = .ok (build d q d.stateCount (withMarkLabels d.markedEdges) (rejectingMarks d))) ∨
        (d.start.length ≠ 1 ∧ withMarks d = .error (.initialStates d.start.length)) ∨
        (stateLimit < d.stateCount ∧ withMarks d = .error .capacity)) ∧
      ((∀ order favored colors, d.accName ≠ ["parity", order, favored, colors]) →
        parity d ≠ .error .undeclaredColor) ∧
      (∀ a, withMarks d = .ok a → a.Safe) ∧ ∀ a, parity d = .ok a → a.Safe := by
  have hd := wellFormed_of_read h
  have hrange := hd.toInRange
  exact ⟨hd, fileEdges?_eq (source_lt_of_mem_withMarkLabels hrange), withMarks_cases d,
    parity_ne_undeclaredColor, fun a => safe_of_withMarks hrange, fun a => safe_of_parity hrange⟩

/-- Two states, whose number is not given, with marks out of order and a state in two pieces. -/
def crossing : String :=
  "HOA: v1\nStart: 0\nAP: 2 \"a\" \"b\"\nAcceptance: 3 Inf(0) & Inf(2)\n--BODY--\n" ++
    "State: 0 \x7b2 1 2\x7d\n[0 & !1] 1 \x7b1 0\x7d\nState: 1\n[1] 1\nState: 0\n[t] 0\n--END--\n"

theorem read_crossing_wellFormed_and_safe : ∃ d a a', read crossing = .ok d ∧ d.WellFormed ∧
    d.stateCount = 2 ∧ d.states.map (·.marks) = [[1, 2], [], []] ∧
    d.accName = [] ∧ withMarks d = .ok a ∧ a.Safe ∧ parity d = .ok a' ∧ a'.Safe := by
  have hrun : ((read crossing).toOption.bind fun d => (withMarks d).toOption.bind fun a =>
      (parity d).toOption.map fun a' => (d.stateCount, d.states.map (·.marks), d.accName, a.edges.size,
        a'.edges.size)) = some (2, [[1, 2], [], []], [], 3, 5) := by decide +kernel
  obtain ⟨d, hd, hrun⟩ := Option.bind_eq_some_iff.mp hrun
  obtain ⟨a, ha, hrun⟩ := Option.bind_eq_some_iff.mp hrun
  obtain ⟨a', ha', hrun⟩ := Option.map_eq_some_iff.mp hrun
  simp only [Prod.mk.injEq] at hrun
  obtain ⟨hcount, hmarks, hname, -, -⟩ := hrun
  obtain ⟨hwf, -, -, -, hsafe, hsafe'⟩ := wellFormed_and_safe_of_read (eq_ok_of_toOption hd)
  have hwith := eq_ok_of_toOption ha
  have hparity := eq_ok_of_toOption ha'
  exact ⟨d, a, a', eq_ok_of_toOption hd, hwf, hcount, hmarks, hname, hwith, hsafe a hwith, hparity,
    hsafe' a' hparity⟩

end Hoa

end OmegaGames
