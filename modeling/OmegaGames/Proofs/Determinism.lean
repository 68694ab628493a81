import OmegaGames.Proofs.LockstepAnswers
import OmegaGames.Proofs.Mentions

/-!
# Determinism by trying all valuations

Whether an automaton is deterministic is found out by trying all valuations of its propositions, which all
have one length. A guard that has been read mentions declared propositions only, and propositions beyond the
end of a valuation are false, so a valuation of any other length acts like one of those. An automaton that is
found deterministic therefore has exactly one transition under every valuation, and so has a product of such
automata, whatever it has been asked before.
-/
namespace OmegaGames

/-! ## Valuations -/

def Valuation.cut (n : Nat) (v : Valuation) : Valuation := (List.range n).map fun i => v.getD i false

theorem Valuation.length_cut (n : Nat) (v : Valuation) : (v.cut n).length = n := by
  rw [cut, List.length_map, List.length_range]

theorem Valuation.getD_cut {n i : Nat} (v : Valuation) (hi : i < n) : (v.cut n).getD i false = v.getD i false := by
  simp [cut, List.getD_eq_getElem?_getD, hi]

/-- The guards of a description that has been read mention declared propositions only. -/
theorem Description.WellFormed.guard_lt {d : Description} (hd : d.WellFormed) {e : MarkedEdge}
    (he : e ∈ d.markedEdges) {m : Nat} (hm : e.guard.Mentions m) : m < d.aps.length := by
  obtain ⟨s, hs, he⟩ := List.mem_flatMap.mp he
  obtain ⟨e', he', rfl⟩ := List.mem_map.mp he
  exact hd.guards s hs e' he' m hm

namespace ExplicitAutomaton

theorem mem_valuations {n : Nat} {v : Valuation} : v ∈ valuations n ↔ v.length = n := by
  induction n generalizing v with
  | zero => simp [valuations]
  | succ n ih =>
    -- The valuations grow at their ends.
    rcases List.eq_nil_or_concat v with rfl | ⟨w, b, rfl⟩
    · simp [valuations]
    · simp only [valuations, List.mem_append, List.mem_map, ih]
      cases b <;> simp

/-! ## Tables of edges -/

def GuardsBelow (n : Nat) (es : List GuardedEdge) : Prop := ∀ e ∈ es, ∀ m, e.guard.Mentions m → m < n

/-- What stands beyond the propositions does not matter, nor does what is missing. -/
theorem enabled_cut {n : Nat} {es : List GuardedEdge} (h : GuardsBelow n es) (v : Valuation) :
    enabled (v.cut n) es = enabled v es := by
  have heval : ∀ e ∈ es, e.guard.eval (v.cut n) = e.guard.eval v := by
    intro e he
    apply Guard.eval_congr
    intro m hm
    exact v.getD_cut (h e he m hm)
  rw [enabled, enabled, List.filter_congr heval]

theorem unambiguous_iff {edges : Array (List GuardedEdge)} {n : Nat}
    (h : ∀ es ∈ edges.toList, GuardsBelow n es) :
    unambiguous edges n = true ↔ ∀ es ∈ edges.toList, ∀ v, (enabled v es).length ≤ 1 := by
  simp only [unambiguous, List.all_eq_true, decide_eq_true_eq]
  constructor
  · intro hall es hes v
    rw [← enabled_cut (h es hes) v]
    exact hall _ (mem_valuations.mpr (v.length_cut n)) es hes
  · intro hall v _ es hes
    exact hall es hes v

/-! ## One automaton -/

section Single

variable {L : Type} {a : ExplicitAutomaton L}

/-- No valuation, of whatever length, enables two edges of one state. -/
def Unambiguous (a : ExplicitAutomaton L) : Prop := ∀ q v, (enabled v (a.edgesFrom q)).length ≤ 1

theorem unambiguous_iff_forall_mem :
    a.Unambiguous ↔ ∀ es ∈ a.edges.toList, ∀ v, (enabled v es).length ≤ 1 := by
  constructor
  · intro h es hes v
    obtain ⟨q, hq⟩ := List.mem_iff_getElem?.mp hes
    rw [Array.getElem?_toList] at hq
    have hstate := h q v
    rwa [edgesFrom, hq, Option.getD_some] at hstate
  · intro h q v
    rw [edgesFrom]
    cases hq : a.edges[q]? with
    | none => simp [enabled]
    | some es => exact h es (List.mem_of_getElem? (Array.getElem?_toList.trans hq)) v

theorem exists_step_eq {sink : Transition} {v : Valuation} {es : List GuardedEdge}
    (h : (enabled v es).length ≤ 1) : ∃ t, step sink v es = [t] := by
  rw [step]
  split
  · exact ⟨sink, rfl⟩
  · rename_i hne
    obtain ⟨t, ht⟩ := List.length_eq_one_iff.mp (Nat.le_antisymm h (List.length_pos_of_ne_nil hne))
    exact ⟨t, ht⟩

theorem Unambiguous.eq_singleton (h : a.Unambiguous) {v : Valuation} {q : Nat} {ts : List Transition}
    (hts : a.query? v q = some ts) : ∃ t, ts = [t] := by
  obtain ⟨es, hes, rfl⟩ := Option.map_eq_some_iff.mp hts
  apply exists_step_eq
  have hstate := h q v
  rwa [edgesFrom, hes, Option.getD_some] at hstate

theorem Unambiguous.exists_query? [DecidableEq L] (h : a.Unambiguous) {q : Nat}
    (hq : q < Automaton.stateCount a) (v : Valuation) : ∃ t, Automaton.query? a v q = some (a, [t]) := by
  obtain ⟨ts, hts⟩ := ExplicitAutomaton.exists_query? v hq
  obtain ⟨t, rfl⟩ := h.eq_singleton hts
  exact ⟨t, by simp [Automaton.query?, hts]⟩

end Single

/-! ## Construction -/

section Construction

variable {L : Type} [DecidableEq L] {d : Description}

theorem deterministic_build_iff {initial n : Nat} {es : List (LabelledEdge L)} {sinkLabel : L}
    (haps : d.aps.length ≤ enumerationLimit) (hproperty : "deterministic" ∉ d.properties)
    (hguards : ∀ e ∈ es, ∀ m, e.guard.Mentions m → m < d.aps.length) :
    (build d initial n es sinkLabel).deterministic = true ↔ (build d initial n es sinkLabel).Unambiguous := by
  have hflag : (build d initial n es sinkLabel).deterministic =
      isDeterministic d (build d initial n es sinkLabel).edges := rfl
  have hstored : ∀ gs ∈ (build d initial n es sinkLabel).edges.toList, GuardsBelow d.aps.length gs := by
    intro gs hgs g hg m hm
    obtain ⟨e, he, hstands⟩ := exists_stands_of_mem hgs hg
    rw [hstands.guard] at hm
    exact hguards e he m hm
  rw [hflag, unambiguous_iff_forall_mem, ← unambiguous_iff hstored]
  simp [isDeterministic, hproperty, haps]

theorem deterministic_withMarks_iff {a : ExplicitAutomaton (List Nat)} (hd : d.WellFormed)
    (haps : d.aps.length ≤ enumerationLimit) (hproperty : "deterministic" ∉ d.properties)
    (h : withMarks d = .ok a) : a.deterministic = true ↔ a.Unambiguous := by
  rcases withMarks_cases d with ⟨q, -, -, hbuild⟩ | ⟨-, herror⟩ | ⟨-, herror⟩
  · rw [hbuild] at h
    cases h
    apply deterministic_build_iff haps hproperty
    intro e he m hm
    obtain ⟨e', he', rfl⟩ := List.mem_map.mp he
    exact hd.guard_lt he' hm
  · rw [herror] at h
    cases h
  · rw [herror] at h
    cases h

theorem guard_copyEdge (sets : List Nat) (e : MarkedEdge) (counter : Nat) :
    (copyEdge sets e counter).guard = e.guard := by
  rw [copyEdge]
  split <;> rfl

theorem deterministic_parity_iff {a : ExplicitAutomaton Nat} (hd : d.WellFormed)
    (haps : d.aps.length ≤ enumerationLimit) (hproperty : "deterministic" ∉ d.properties)
    (h : parity d = .ok a) : a.deterministic = true ↔ a.Unambiguous := by
  obtain ⟨q, c, -, -, ⟨sets, -, rfl⟩ | ⟨les, hles, rfl⟩⟩ := parity_cases h
  · apply deterministic_build_iff haps hproperty
    intro e he m hm
    obtain ⟨e', he', he⟩ := List.mem_flatMap.mp he
    obtain ⟨counter, -, rfl⟩ := List.mem_map.mp he
    rw [guard_copyEdge] at hm
    exact hd.guard_lt he' hm
  · apply deterministic_build_iff haps hproperty
    intro e he m hm
    obtain ⟨e', he', heq⟩ := exists_mem_of_forall₂ (forall₂_of_mapM_eq_ok hles) e he
    split at heq
    · cases heq
      exact hd.guard_lt he' hm
    · cases heq

end Construction

end ExplicitAutomaton

/-! ## Products -/

namespace Lockstep

variable {L : Type} {components : List (ExplicitAutomaton L)} {v : Valuation} {tuple : List Nat}
  {steps : List (List Transition)}

theorem choiceCount_eq_one (h : ∀ c ∈ components, c.Unambiguous)
    (hown : ownAnswers components v tuple = steps.map some) : choiceCount steps = 1 := by
  induction components generalizing tuple steps with
  | nil =>
    cases steps with
    | nil => rfl
    | cons _ _ => simp [ownAnswers] at hown
  | cons c components ih =>
    cases tuple with
    | nil =>
      cases steps with
      | nil => rfl
      | cons _ _ => simp [ownAnswers] at hown
    | cons q tuple =>
      rw [ownAnswers, List.zipWith_cons_cons, ← ownAnswers] at hown
      cases steps with
      | nil => simp at hown
      | cons ts steps =>
        rw [List.map_cons, List.cons.injEq] at hown
        obtain ⟨hc, hcomponents⟩ := List.forall_mem_cons.mp h
        obtain ⟨t, rfl⟩ := hc.eq_singleton hown.1
        rw [choiceCount, List.foldr_cons, ← choiceCount, ih hcomponents hown.2]
        rfl

theorem eq_start_of_ofComponents {p : Lockstep L} (h : ofComponents components = .ok p) :
    p = ⟨components, ⟨#[components.map (·.initial)]⟩, {}, []⟩ := by
  cases components with
  | nil => cases h
  | cons c components =>
    rw [ofComponents] at h
    split at h
    · cases h
    · cases h
      simp [Interner.find?]

/-- A product of automata with one transition each has one transition, whatever it has been asked before. -/
theorem exists_query?_of_unambiguous {p p' : Lockstep L} (h : ofComponents components = .ok p)
    (hclosed : ∀ c ∈ components, c.Closed) (hsingle : ∀ c ∈ components, c.Unambiguous)
    (hp : Automaton.Queried p p') {q : Nat} (hq : q < Automaton.stateCount p') (v : Valuation) :
    ∃ p'' t, Automaton.query? p' v q = some (p'', [t]) := by
  obtain rfl := eq_start_of_ofComponents h
  obtain ⟨hconsistent, hgrows⟩ := (consistent_start components).queried hp
  have hfaithful := hconsistent.faithful
  rw [hgrows.components_eq] at hfaithful
  have htuple : p'.tuple? q = some p'.states.values[q] := Array.getElem?_eq_getElem hq
  rcases hfaithful.answer v q _ htuple with ⟨hnone, -⟩ | ⟨steps, p'', ts, hown, hquery, hlists⟩
  · exact absurd hnone (hfaithful.answered hclosed v q _ htuple)
  · have hlen : ts.length = 1 := by rw [hlists.length_eq, choiceCount_eq_one hsingle hown]
    obtain ⟨t, rfl⟩ := List.length_eq_one_iff.mp hlen
    exact ⟨p'', t, hquery⟩

end Lockstep

namespace ExplicitAutomaton

variable {L : Type}

/-- Comes from a text with few propositions that does not say of itself that it is deterministic. -/
def Undeclared (make : Description → Except AutomatonError (ExplicitAutomaton L)) (a : ExplicitAutomaton L) :
    Prop :=
  ∃ source d, Hoa.read source = .ok d ∧ d.aps.length ≤ enumerationLimit ∧
    "deterministic" ∉ d.properties ∧ make d = .ok a

/-- What is known of the automata that one construction makes from such texts. -/
structure DecidesDeterminism [DecidableEq L]
    (make : Description → Except AutomatonError (ExplicitAutomaton L)) : Prop where
  iff_unambiguous : ∀ a, Undeclared make a → (Automaton.isDeterministic a = true ↔ a.Unambiguous)
  /-- Every query has one transition. -/
  query? : ∀ a, Undeclared make a → Automaton.isDeterministic a = true → ∀ q < Automaton.stateCount a, ∀ v,
    ∃ t, Automaton.query? a v q = some (a, [t])
  /-- So has every query of a product, after any queries. -/
  product : ∀ (components : List (ExplicitAutomaton L)) (p p' : Lockstep L),
    (∀ c ∈ components, Undeclared make c ∧ Automaton.isDeterministic c = true) →
    Lockstep.ofComponents components = .ok p → Automaton.Queried p p' →
    Automaton.isDeterministic p' = true ∧ ∀ q < Automaton.stateCount p', ∀ v,
      ∃ p'' t, Automaton.query? p' v q = some (p'', [t])

section Decision

variable [DecidableEq L] {make : Description → Except AutomatonError (ExplicitAutomaton L)}

theorem decidesDeterminism
    (hiff : ∀ d a, d.WellFormed → d.aps.length ≤ enumerationLimit → "deterministic" ∉ d.properties →
      make d = .ok a → (a.deterministic = true ↔ a.Unambiguous))
    (hclosed : ∀ d a, d.InRange → make d = .ok a → a.Closed) : DecidesDeterminism make := by
  have hdecides : ∀ a, Undeclared make a → (Automaton.isDeterministic a = true ↔ a.Unambiguous) := by
    rintro a ⟨source, d, hread, haps, hproperty, ha⟩
    exact hiff d a (Hoa.wellFormed_of_read hread) haps hproperty ha
  refine ⟨hdecides, ?_, ?_⟩
  · intro a ha hdeterministic q hq v
    exact ((hdecides a ha).mp hdeterministic).exists_query? hq v
  · intro components p p' hcomponents hp hqueried
    constructor
    · rw [hqueried.isDeterministic_eq, Lockstep.eq_start_of_ofComponents hp]
      exact List.all_eq_true.mpr fun c hc => (hcomponents c hc).2
    · intro q hq v
      apply Lockstep.exists_query?_of_unambiguous hp _ _ hqueried hq
      · intro c hc
        obtain ⟨source, d, hread, -, -, hmake⟩ := (hcomponents c hc).1
        exact hclosed d c (Hoa.inRange_of_read hread) hmake
      · intro c hc
        exact (hdecides c (hcomponents c hc).1).mp (hcomponents c hc).2

end Decision

/-- Both constructions find out by trying all valuations of one length whether some valuation of any length
enables two edges of a state. If none does, every query has exactly one transition, in a product too. -/
theorem decidesDeterminism_withMarks_parity : DecidesDeterminism withMarks ∧ DecidesDeterminism parity :=
  ⟨decidesDeterminism (fun _ _ => deterministic_withMarks_iff) fun _ _ => closed_of_withMarks,
    decidesDeterminism (fun _ _ => deterministic_parity_iff) fun _ _ => closed_of_parity⟩

end ExplicitAutomaton

/-- Two propositions that exclude each other, and two sets to wait for. -/
def Hoa.exclusion : String :=
  "HOA: v1\nStates: 1\nStart: 0\nAP: 2 \"a\" \"b\"\nAcceptance: 2 Inf(0) & Inf(1)\n--BODY--\n" ++
    "State: 0\n[0 & !1] 0 \x7b0\x7d\n[!0 & 1] 0 \x7b1\x7d\n[!(0 | 1)] 0\n--END--\n"

namespace ExplicitAutomaton

theorem decidesDeterminism_exclusion : ∃ a p, Undeclared parity a ∧ Automaton.isDeterministic a = true ∧
    Automaton.stateCount a = 3 ∧ a.Unambiguous ∧ Lockstep.ofComponents [a, a] = .ok p ∧
    ∀ p', Automaton.Queried p p' → ∀ q < Automaton.stateCount p', ∀ v,
      ∃ p'' t, Automaton.query? p' v q = some (p'', [t]) := by
  have hrun : ((Hoa.read Hoa.exclusion).toOption.bind fun d => (parity d).toOption.map fun a =>
      (d.aps, d.properties, Automaton.isDeterministic a, Automaton.stateCount a)) =
      some (["a", "b"], [], true, 3) := by decide +kernel
  obtain ⟨d, hd, hrun⟩ := Option.bind_eq_some_iff.mp hrun
  obtain ⟨a, ha, hrun⟩ := Option.map_eq_some_iff.mp hrun
  simp only [Prod.mk.injEq] at hrun
  obtain ⟨haps, hproperties, hdeterministic, hcount⟩ := hrun
  have hundeclared : Undeclared parity a :=
    ⟨_, d, eq_ok_of_toOption hd, by simp [haps, enumerationLimit], by simp [hproperties], eq_ok_of_toOption ha⟩
  have hdecides := decidesDeterminism_withMarks_parity.2
  have hp : Lockstep.ofComponents [a, a] = .ok _ := Lockstep.ofComponents_eq_ok (by simp) (by simp)
  refine ⟨a, _, hundeclared, hdeterministic, hcount, ?_, hp, ?_⟩
  · exact (hdecides.iff_unambiguous a hundeclared).mp hdeterministic
  · intro p' hqueried
    exact (hdecides.product _ _ p' (by simp [hundeclared, hdeterministic]) hp hqueried).2

end ExplicitAutomaton

end OmegaGames
