import OmegaGames.Automaton.Hoa
import OmegaGames.Proofs.ExplicitAutomata

/-!
# From descriptions to explicit automata

A description that has been read names only states that exist. The automaton built from it stores the
edges of each state in the order of the description, so a stored edge is told apart by its position,
and every transition leads to a state of the automaton.
-/
namespace OmegaGames

/-! ## Marks -/

theorem mem_insertMark {m n : Nat} {ms : List Nat} : n ∈ insertMark m ms ↔ n = m ∨ n ∈ ms := by
  induction ms with
  | nil => simp [insertMark]
  | cons k ms ih =>
    by_cases hlt : m < k
    · simp [insertMark, hlt]
    · by_cases heq : m = k
      · simp [insertMark, heq]
      · simp only [insertMark, hlt, heq, if_false, List.mem_cons, ih]
        exact or_left_comm

@[simp] theorem mem_sortMarks {m : Nat} {ms : List Nat} : m ∈ sortMarks ms ↔ m ∈ ms := by
  induction ms with
  | nil => simp [sortMarks]
  | cons k ms ih =>
    rw [List.mem_cons, ← ih]
    exact mem_insertMark

/-! ## Described edges -/

structure OutgoingEdge where
  state : DescribedState
  edge : DescribedEdge

namespace OutgoingEdge

/-- Whether an edge carries a mark, by itself or through its state. -/
def carries (e : OutgoingEdge) (m : Nat) : Bool := e.state.marks.contains m || e.edge.marks.contains m

def marked (e : OutgoingEdge) : MarkedEdge :=
  ⟨e.state.id, e.edge.guard, e.edge.target, sortMarks (e.state.marks ++ e.edge.marks)⟩

theorem contains_marks_marked (e : OutgoingEdge) (m : Nat) : e.marked.marks.contains m = e.carries m := by
  rw [Bool.eq_iff_iff]
  simp [marked, carries]

end OutgoingEdge

namespace Description

def edgesFrom (d : Description) (q : Nat) : List OutgoingEdge :=
  (d.states.filter (·.id = q)).flatMap fun s => s.edges.map fun e => ⟨s, e⟩

theorem mem_edgesFrom {d : Description} {q : Nat} {e : OutgoingEdge} :
    e ∈ d.edgesFrom q ↔ e.state ∈ d.states ∧ e.state.id = q ∧ e.edge ∈ e.state.edges := by
  obtain ⟨s, e⟩ := e
  simp only [edgesFrom, List.mem_flatMap, List.mem_filter, List.mem_map, decide_eq_true_eq,
    OutgoingEdge.mk.injEq]
  constructor
  · rintro ⟨s', ⟨hs, hid⟩, e', he, rfl, rfl⟩
    exact ⟨hs, hid, he⟩
  · rintro ⟨hs, hid, he⟩
    exact ⟨s, ⟨hs, hid⟩, e, he, rfl, rfl⟩

theorem filter_markedEdges (d : Description) (q : Nat) :
    d.markedEdges.filter (·.source = q) = (d.edgesFrom q).map OutgoingEdge.marked := by
  rw [markedEdges, edgesFrom]
  induction d.states with
  | nil => rfl
  | cons s ss ih =>
    rw [List.flatMap_cons, List.filter_append, ih, List.filter_cons]
    by_cases hid : s.id = q
    · simp [hid, OutgoingEdge.marked, Function.comp_def]
    · simp [hid]

structure InRange (d : Description) : Prop where
  id_lt : ∀ s ∈ d.states, s.id < d.stateCount
  start_lt : ∀ q ∈ d.start, q < d.stateCount
  target_lt : ∀ s ∈ d.states, ∀ e ∈ s.edges, e.target < d.stateCount

theorem InRange.of_mem_edgesFrom {d : Description} (h : d.InRange) {q : Nat} {e : OutgoingEdge}
    (he : e ∈ d.edgesFrom q) : q < d.stateCount ∧ e.edge.target < d.stateCount := by
  obtain ⟨hs, rfl, hmem⟩ := mem_edgesFrom.mp he
  exact ⟨h.id_lt _ hs, h.target_lt _ hs _ hmem⟩

theorem InRange.of_mem_markedEdges {d : Description} (h : d.InRange) {e : MarkedEdge}
    (he : e ∈ d.markedEdges) : e.source < d.stateCount ∧ e.target < d.stateCount := by
  obtain ⟨s, hs, he⟩ := List.mem_flatMap.mp he
  obtain ⟨e', he', rfl⟩ := List.mem_map.mp he
  exact ⟨h.id_lt s hs, h.target_lt s hs e' he'⟩

end Description

namespace Hoa

/-- The checks of the whole cover all states and acceptance sets that are mentioned. -/
theorem rangeFault?_eq_none_iff {d : Description} : rangeFault? d = none ↔
    d.InRange ∧ (∀ s ∈ d.states, ∀ m ∈ s.marks, m < d.acceptanceSets) ∧
      (∀ s ∈ d.states, ∀ e ∈ s.edges, ∀ m ∈ e.marks, m < d.acceptanceSets) ∧
      ∀ m, d.acceptance.sets.max? = some m → m < d.acceptanceSets := by
  simp only [rangeFault?, Option.or_eq_none_iff, Option.map_eq_none_iff, List.find?_eq_none, List.mem_append,
    List.mem_map, List.mem_flatMap, Option.mem_toList, decide_eq_true_eq, Nat.not_le]
  constructor
  · rintro ⟨hstates, htargets, hmarks⟩
    refine ⟨⟨?_, ?_, ?_⟩, ?_, ?_, ?_⟩
    · intro s hs
      exact hstates s.id (Or.inl ⟨s, hs, rfl⟩)
    · intro q hq
      exact hstates q (Or.inr hq)
    · intro s hs e he
      exact htargets e.target ⟨s, hs, e, he, rfl⟩
    · intro s hs m hm
      exact hmarks m (Or.inl ⟨s, hs, Or.inl hm⟩)
    · intro s hs e he m hm
      exact hmarks m (Or.inl ⟨s, hs, Or.inr ⟨e, he, hm⟩⟩)
    · intro m hm
      exact hmarks m (Or.inr hm)
  · rintro ⟨hrange, hstate, hedge, hcondition⟩
    refine ⟨?_, ?_, ?_⟩
    · rintro q (⟨s, hs, rfl⟩ | hq)
      · exact hrange.id_lt s hs
      · exact hrange.start_lt q hq
    · rintro q ⟨s, hs, e, he, rfl⟩
      exact hrange.target_lt s hs e he
    · rintro m (⟨s, hs, hm | ⟨e, he, hm⟩⟩ | hm)
      · exact hstate s hs m hm
      · exact hedge s hs e he m hm
      · exact hcondition m hm

theorem assemble_eq_ok_iff {h : Header} {condition : Nat × Acceptance} {states : List DescribedState}
    {d : Description} : assemble h condition states = .ok d ↔ ∃ n, h.countStates states = .ok n ∧
      rangeFault? (h.describe condition n states) = none ∧ h.describe condition n states = d := by
  rw [assemble]
  cases h.countStates states with
  | error f => simp [bind, Except.bind]
  | ok n =>
    simp only [bind, Except.bind]
    cases hfault : rangeFault? (h.describe condition n states) with
    | some f => simp [hfault, throw, throwThe, MonadExceptOf.throw]
    | none => simp [hfault, pure, Except.pure]

/-- A text is read if its header has a condition, its body is read and the whole passes the checks. -/
theorem read_eq_ok_iff {source : String} {d : Description} :
    read source = .ok d ↔ ∃ h rest condition states,
      readHeader false {} (Text.numberedLines source.toList) = .ok (h, rest) ∧ h.acceptance = some condition ∧
        readBody h.aps.length [] rest = .ok states ∧ assemble h condition states = .ok d := by
  constructor
  · intro h
    obtain ⟨⟨header, rest⟩, hheader, h⟩ := exists_of_bind_eq_ok h
    dsimp only at h
    cases hacc : header.acceptance with
    | none =>
      rw [hacc] at h
      cases h
    | some condition =>
      rw [hacc] at h
      obtain ⟨states, hstates, h⟩ := exists_of_bind_eq_ok h
      refine ⟨header, rest, condition, states, hheader, hacc, hstates, ?_⟩
      cases hwhole : assemble header condition states with
      | error f =>
        rw [hwhole] at h
        cases h
      | ok d' =>
        rw [hwhole] at h
        exact congrArg Except.ok (Except.ok.inj h)
  · rintro ⟨header, rest, condition, states, hheader, hacc, hstates, hwhole⟩
    simp only [read, bind, Except.bind, hheader, hacc, hstates, hwhole]
    rfl

theorem exists_body_of_read {source : String} {d : Description} (h : read source = .ok d) :
    (∃ rest, readBody d.aps.length [] rest = .ok d.states) ∧ rangeFault? d = none := by
  obtain ⟨header, rest, condition, states, -, -, hstates, hwhole⟩ := read_eq_ok_iff.mp h
  obtain ⟨n, -, hfault, rfl⟩ := assemble_eq_ok_iff.mp hwhole
  exact ⟨⟨rest, hstates⟩, hfault⟩

theorem inRange_of_read {source : String} {d : Description} (h : read source = .ok d) : d.InRange :=
  (rangeFault?_eq_none_iff.mp (exists_body_of_read h).2).1

end Hoa

/-! ## Stored edges -/

namespace ExplicitAutomaton

variable {L : Type}

def edgesFrom (a : ExplicitAutomaton L) (q : Nat) : List GuardedEdge := a.edges[q]?.getD []

theorem size_fileEdges (n : Nat) (es : List (LabelledEdge L)) : (fileEdges n es).size = n := by
  have hsize : ∀ q, (fileEdges n es).size ≤ q ↔ n ≤ q := by
    intro q
    rw [← Array.getElem?_eq_none_iff, getElem?_fileEdges]
    by_cases hq : q < n
    · simp [hq]
    · simpa [hq] using Nat.le_of_not_lt hq
  have hlow := hsize (fileEdges n es).size
  have hhigh := hsize n
  omega

/-- Every transition leads to a state of the automaton. -/
structure Closed (a : ExplicitAutomaton L) : Prop where
  initial_lt : a.initial < a.edges.size
  target_lt : ∀ es ∈ a.edges.toList, ∀ e ∈ es, e.target < a.edges.size
  sink_lt : a.sink.state < a.edges.size

variable {a : ExplicitAutomaton L}

theorem exists_query? (v : Valuation) {q : Nat} (hq : q < a.edges.size) : ∃ ts, a.query? v q = some ts :=
  ⟨_, by rw [query?, Array.getElem?_eq_getElem hq, Option.map_some]⟩

/-- A transition follows a stored edge or leads to the sink. -/
theorem eq_of_mem_query? {v : Valuation} {q : Nat} {ts : List Transition} (h : a.query? v q = some ts)
    {t : Transition} (ht : t ∈ ts) :
    t = a.sink ∨ ∃ es ∈ a.edges.toList, ∃ e ∈ es, t = ⟨e.target, e.label⟩ := by
  obtain ⟨es, hes, rfl⟩ := Option.map_eq_some_iff.mp h
  rw [step] at ht
  split at ht
  · exact Or.inl (List.mem_singleton.mp ht)
  · obtain ⟨e, he, rfl⟩ := List.mem_map.mp ht
    have hmem : es ∈ a.edges.toList := List.mem_of_getElem? (Array.getElem?_toList.trans hes)
    exact Or.inr ⟨es, hmem, e, (List.mem_filter.mp he).1, rfl⟩

theorem Closed.state_lt (ha : a.Closed) {v : Valuation} {q : Nat} {ts : List Transition}
    (h : a.query? v q = some ts) : ∀ t ∈ ts, t.state < a.edges.size := by
  intro t ht
  rcases eq_of_mem_query? h ht with rfl | ⟨es, hes, e, he, rfl⟩
  · exact ha.sink_lt
  · exact ha.target_lt es hes e he

section Build

variable [DecidableEq L] (d : Description) (initial n : Nat) (es : List (LabelledEdge L)) (sinkLabel : L)

theorem distinct_numberLabels {labels : Interner L} (h : labels.Distinct) :
    (numberLabels labels es).1.Distinct := by
  induction es generalizing labels with
  | nil => exact h
  | cons e es ih => exact ih (h.intern e.label)

theorem distinct_labels_build : (build d initial n es sinkLabel).labels.Distinct := by
  have hfold : ∀ (rest : List (List (LabelledEdge L))) (done : Interner L × Array (List GuardedEdge)),
      done.1.Distinct → (rest.foldl numberState done).1.Distinct := by
    intro rest
    induction rest with
    | nil => exact fun done h => h
    | cons es rest ih => exact fun done h => ih _ (distinct_numberLabels es h)
  have hfiled := hfold (fileEdges n es).toList ({}, #[]) List.nodup_nil
  rw [Array.foldl_toList] at hfiled
  exact hfiled.intern sinkLabel

/-- Every state has its edges, and the sink comes after all states. -/
theorem size_build : (build d initial n es sinkLabel).edges.size = n + 1 := by
  have hlen := (stored_build d initial n es sinkLabel).length_eq
  simp only [List.length_append, List.length_cons, List.length_nil, Array.length_toList,
    size_fileEdges] at hlen
  exact hlen.symm

/-- The stored edges of a state stand for the given ones, position by position. -/
theorem forall₂_edgesFrom_build {q : Nat} (hq : q < n) :
    List.Forall₂ (Stands (build d initial n es sinkLabel).labels) (es.filter (·.source = q))
      ((build d initial n es sinkLabel).edgesFrom q) := by
  have hstored := stored_build d initial n es sinkLabel
  have hsize := size_build d initial n es sinkLabel
  have hfiled := size_fileEdges n es
  have hlt : q < (build d initial n es sinkLabel).edges.size := by omega
  have hrow := (List.forall₂_iff_get.mp hstored).2 q (by simp [hfiled]; omega) (by simpa using hlt)
  have hget : (fileEdges n es)[q]? = some (es.filter (·.source = q)) := by
    rw [getElem?_fileEdges, if_pos hq]
  obtain ⟨hq', hfile⟩ := Array.getElem?_eq_some_iff.mp hget
  simpa [edgesFrom, hlt, List.getElem_append_left, hq', hfile] using hrow

variable {initial n es} in
theorem closed_build (hinitial : initial ≤ n) (htarget : ∀ e ∈ es, e.target ≤ n) :
    (build d initial n es sinkLabel).Closed := by
  have hsize := size_build d initial n es sinkLabel
  refine ⟨?_, ?_, ?_⟩
  · rw [hsize]
    exact Nat.lt_succ_of_le hinitial
  · intro gs hgs g hg
    obtain ⟨e, he, hstands⟩ := exists_stands_of_mem hgs hg
    rw [hsize, hstands.target]
    exact Nat.lt_succ_of_le (htarget e he)
  · rw [hsize]
    exact Nat.lt_succ_self n

end Build

/-! ## Parity automata -/

def withPriorities (p : List Nat → Nat) (es : List MarkedEdge) : List (LabelledEdge Nat) :=
  es.map fun e => ⟨e.source, e.guard, e.target, p e.marks⟩

theorem relabel_eq_ok_of_mem {c : ParityCondition} {p : List Nat → Nat} {es : List MarkedEdge}
    (hp : ∀ e ∈ es, c.priority? e.marks = some (p e.marks)) : relabel c es = .ok (withPriorities p es) := by
  induction es with
  | nil => rfl
  | cons e es ih =>
    obtain ⟨he, hes⟩ := List.forall_mem_cons.mp hp
    have htail := ih hes
    rw [relabel] at htail ⊢
    rw [List.mapM_cons, htail, he]
    rfl

theorem relabel_eq_ok {c : ParityCondition} {p : List Nat → Nat}
    (hp : ∀ marks, c.priority? marks = some (p marks)) (es : List MarkedEdge) :
    relabel c es = .ok (withPriorities p es) :=
  relabel_eq_ok_of_mem fun e _ => hp e.marks

theorem relabel_eq_error {c : ParityCondition} {es : List MarkedEdge} {e : MarkedEdge} (he : e ∈ es)
    (hnone : c.priority? e.marks = none) : relabel c es = .error .undeclaredColor := by
  induction es with
  | nil => cases he
  | cons e' es ih =>
    rw [relabel] at ih ⊢
    rw [List.mapM_cons]
    rcases List.mem_cons.mp he with rfl | he
    · rw [hnone]
      rfl
    · rw [ih he]
      cases c.priority? e'.marks with
      | none => rfl
      | some p => rfl

theorem initialState_eq_ok_iff {d : Description} {q : Nat} : initialState d = .ok q ↔ d.start = [q] := by
  rw [initialState.eq_def]
  split
  · rename_i q' hstart
    simp [hstart]
  · rename_i hstart
    constructor
    · intro h
      cases h
    · intro h
      exact absurd h (hstart q)

theorem checkStateCount_eq_ok_iff {n : Nat} {u : Unit} : checkStateCount n = .ok u ↔ n ≤ stateLimit := by
  by_cases hn : stateLimit < n
  · simp [checkStateCount, hn]
  · simpa [checkStateCount, hn] using Nat.le_of_not_lt hn

/-- Without the name of a parity condition the formula counts. -/
theorem ofDescription_eq {d : Description}
    (h : ∀ order favored colors, d.accName ≠ ["parity", order, favored, colors]) :
    ParityCondition.ofDescription d = ParityCondition.ofAcceptance d.acceptance := by
  have hname : ParityCondition.ofName? d.accName = none := by
    rw [ParityCondition.ofName?.eq_def]
    split
    · rename_i hwords
      exact absurd hwords (h _ _ _)
    · rfl
  rw [ParityCondition.ofDescription, hname]

theorem parity_eq_ok_iff_of_priorities {d : Description} {a : ExplicitAutomaton Nat} {c : ParityCondition}
    {p : List Nat → Nat} (hc : ParityCondition.ofDescription d = .ok c)
    (hp : ∀ marks, c.priority? marks = some (p marks)) :
    parity d = .ok a ↔ ∃ q, d.start = [q] ∧ d.stateCount ≤ stateLimit ∧
      a = build d q d.stateCount (withPriorities p d.markedEdges) 1 := by
  constructor
  · intro h
    obtain ⟨q, hq, h⟩ := exists_of_bind_eq_ok h
    obtain ⟨c', hc', h⟩ := exists_of_bind_eq_ok h
    obtain rfl : c = c' := Except.ok.inj (hc.symm.trans hc')
    cases c with
    | generalizedBuchi sets => cases hp []
    | _ =>
      obtain ⟨u, hn, h⟩ := exists_of_bind_eq_ok h
      rw [relabel_eq_ok hp] at h
      cases h
      exact ⟨q, initialState_eq_ok_iff.mp hq, checkStateCount_eq_ok_iff.mp hn, rfl⟩
  · rintro ⟨q, hq, hn, rfl⟩
    have hroom : checkStateCount d.stateCount = .ok () := checkStateCount_eq_ok_iff.mpr hn
    rw [parity, initialState_eq_ok_iff.mpr hq, hc]
    cases c with
    | generalizedBuchi sets => cases hp []
    | _ =>
      simp only [bind, Except.bind, hroom, relabel_eq_ok hp]
      rfl

theorem parity_eq_ok_iff_of_generalizedBuchi {d : Description} {a : ExplicitAutomaton Nat}
    {sets : List Nat} (hc : ParityCondition.ofDescription d = .ok (.generalizedBuchi sets)) :
    parity d = .ok a ↔ ∃ q, d.start = [q] ∧ d.stateCount * sets.length ≤ stateLimit ∧
      a = build d (q * sets.length) (d.stateCount * sets.length) (copyEdges sets d.markedEdges) 1 := by
  constructor
  · intro h
    obtain ⟨q, hq, h⟩ := exists_of_bind_eq_ok h
    obtain ⟨c', hc', h⟩ := exists_of_bind_eq_ok h
    obtain rfl := Except.ok.inj (hc.symm.trans hc')
    obtain ⟨u, hn, h⟩ := exists_of_bind_eq_ok h
    cases h
    exact ⟨q, initialState_eq_ok_iff.mp hq, checkStateCount_eq_ok_iff.mp hn, rfl⟩
  · rintro ⟨q, hq, hn, rfl⟩
    have hroom : checkStateCount (d.stateCount * sets.length) = .ok () := checkStateCount_eq_ok_iff.mpr hn
    rw [parity, initialState_eq_ok_iff.mpr hq, hc]
    simp only [bind, Except.bind, hroom]
    rfl

/-! ## Closedness -/

theorem advance_le (marks : List Nat) (sets : List Nat) (next : Nat) :
    advance marks sets next ≤ next + sets.length := by
  induction sets generalizing next with
  | nil => simp [advance]
  | cons n sets ih =>
    have hrest := ih (next + 1)
    rw [advance, List.length_cons]
    split <;> omega

theorem target_copyEdges_le {d : Description} (hd : d.InRange) {sets : List Nat} {e : LabelledEdge Nat}
    (he : e ∈ copyEdges sets d.markedEdges) : e.target ≤ d.stateCount * sets.length := by
  obtain ⟨e', he', he⟩ := List.mem_flatMap.mp he
  obtain ⟨counter, hcounter, rfl⟩ := List.mem_map.mp he
  have hrow : (e'.target + 1) * sets.length ≤ d.stateCount * sets.length :=
    Nat.mul_le_mul_right _ (hd.of_mem_markedEdges he').2
  have hnext := advance_le e'.marks (sets.drop counter) counter
  rw [Nat.succ_mul] at hrow
  rw [List.length_drop] at hnext
  have hlt := List.mem_range.mp hcounter
  simp only [copyEdge]
  split
  · dsimp only
    omega
  · dsimp only
    omega

theorem target_relabel_le {d : Description} (hd : d.InRange) {c : ParityCondition}
    {les : List (LabelledEdge Nat)} (hles : relabel c d.markedEdges = .ok les) {e : LabelledEdge Nat}
    (he : e ∈ les) : e.target ≤ d.stateCount := by
  obtain ⟨e', he', heq⟩ := exists_mem_of_forall₂ (forall₂_of_mapM_eq_ok hles) e he
  split at heq
  · cases heq
    exact Nat.le_of_lt (hd.of_mem_markedEdges he').2
  · cases heq

theorem closed_of_parity {d : Description} {a : ExplicitAutomaton Nat} (hd : d.InRange)
    (h : parity d = .ok a) : a.Closed := by
  obtain ⟨q, c, hq, -, hcases⟩ := parity_cases h
  have hlt : q < d.stateCount := hd.start_lt q (by simp [initialState_eq_ok_iff.mp hq])
  rcases hcases with ⟨sets, rfl, rfl⟩ | ⟨les, hles, rfl⟩
  · exact closed_build d 1 (Nat.mul_le_mul_right _ (Nat.le_of_lt hlt)) fun e he => target_copyEdges_le hd he
  · exact closed_build d 1 (Nat.le_of_lt hlt) fun e he => target_relabel_le hd hles he

theorem closed_of_withMarks {d : Description} {a : ExplicitAutomaton (List Nat)} (hd : d.InRange)
    (h : withMarks d = .ok a) : a.Closed := by
  obtain ⟨q, hq, h⟩ := exists_of_bind_eq_ok h
  obtain ⟨-, -, h⟩ := exists_of_bind_eq_ok h
  cases h
  have hlt : q < d.stateCount := hd.start_lt q (by simp [initialState_eq_ok_iff.mp hq])
  apply closed_build d _ (Nat.le_of_lt hlt)
  intro e he
  obtain ⟨e', he', rfl⟩ := List.mem_map.mp he
  exact Nat.le_of_lt (hd.of_mem_markedEdges he').2

end ExplicitAutomaton

end OmegaGames
