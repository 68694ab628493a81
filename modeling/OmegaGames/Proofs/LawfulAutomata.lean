import OmegaGames.Automaton.Lockstep
import Mathlib.Logic.Relation

/-!
# Automata that keep their answers

A query may change an automaton, since states are numbered as they are discovered. What has been
answered stays: the same question gets the same transitions later on, and asking it again changes
nothing.
-/
namespace OmegaGames

open Relation

/-- The first automaton becomes the second one by queries. -/
def Automaton.Queried {A L : Type} [Automaton A L] : A → A → Prop :=
  ReflTransGen fun a a' => ∃ v q ts, query? a v q = some (a', ts)

theorem Automaton.Queried.trans {A L : Type} [Automaton A L] {a a' a'' : A} (h : Queried a a')
    (h' : Queried a' a'') : Queried a a'' :=
  ReflTransGen.trans h h'

/-- What a query leaves as it is. -/
class LawfulAutomaton (A : Type) {L : Type} [Automaton A L] : Prop where
  expressions_eq {a a' : A} {v : Valuation} {q : Nat} {ts : List Transition} :
    Automaton.query? a v q = some (a', ts) → Automaton.expressions a' = Automaton.expressions a
  initial_eq {a a' : A} {v : Valuation} {q : Nat} {ts : List Transition} :
    Automaton.query? a v q = some (a', ts) → Automaton.initial a' = Automaton.initial a
  isDeterministic_eq {a a' : A} {v : Valuation} {q : Nat} {ts : List Transition} :
    Automaton.query? a v q = some (a', ts) → Automaton.isDeterministic a' = Automaton.isDeterministic a
  /-- A question that has been answered changes nothing when it is asked again. -/
  query?_again {a a' : A} {v : Valuation} {q : Nat} {ts : List Transition} :
    Automaton.query? a v q = some (a', ts) → Automaton.query? a' v q = some (a', ts)
  /-- Such an answer outlives other questions. -/
  query?_other {a a' : A} {v v' : Valuation} {q q' : Nat} {ts ts' : List Transition} :
    Automaton.query? a v q = some (a, ts) → Automaton.query? a v' q' = some (a', ts') →
      Automaton.query? a' v q = some (a', ts)

namespace Automaton.Queried

variable {A L : Type} [Automaton A L] [LawfulAutomaton A] {a a' : A}

theorem expressions_eq (h : Queried a a') : expressions a' = expressions a := by
  induction h with
  | refl => rfl
  | tail _ hstep ih =>
    obtain ⟨v, q, ts, hquery⟩ := hstep
    rw [LawfulAutomaton.expressions_eq hquery, ih]

theorem initial_eq (h : Queried a a') : initial a' = initial a := by
  induction h with
  | refl => rfl
  | tail _ hstep ih =>
    obtain ⟨v, q, ts, hquery⟩ := hstep
    rw [LawfulAutomaton.initial_eq hquery, ih]

theorem isDeterministic_eq (h : Queried a a') : isDeterministic a' = isDeterministic a := by
  induction h with
  | refl => rfl
  | tail _ hstep ih =>
    obtain ⟨v, q, ts, hquery⟩ := hstep
    rw [LawfulAutomaton.isDeterministic_eq hquery, ih]

theorem query?_eq (h : Queried a a') {v : Valuation} {q : Nat} {ts : List Transition}
    (hts : query? a v q = some (a, ts)) : query? a' v q = some (a', ts) := by
  induction h with
  | refl => exact hts
  | tail _ hstep ih =>
    obtain ⟨v', q', ts', hquery⟩ := hstep
    exact LawfulAutomaton.query?_other ih hquery

end Automaton.Queried

/-! ## Explicit automata -/

namespace ExplicitAutomaton

variable {L : Type} [DecidableEq L] {a a' : ExplicitAutomaton L}

theorem eq_of_query? {v : Valuation} {q : Nat} {ts : List Transition}
    (h : Automaton.query? a v q = some (a', ts)) : a' = a := by
  obtain ⟨ts', -, hpair⟩ := Option.map_eq_some_iff.mp h
  cases hpair
  rfl

/-- All states of an explicit automaton are known from the start. -/
theorem eq_of_queried (h : Automaton.Queried a a') : a' = a := by
  induction h with
  | refl => rfl
  | tail _ hstep ih =>
    obtain ⟨v, q, ts, hquery⟩ := hstep
    rw [eq_of_query? hquery, ih]

instance : LawfulAutomaton (ExplicitAutomaton L) where
  expressions_eq h := by rw [eq_of_query? h]
  initial_eq h := by rw [eq_of_query? h]
  isDeterministic_eq h := by rw [eq_of_query? h]
  query?_again h := by
    obtain rfl := eq_of_query? h
    exact h
  query?_other h h' := by
    obtain rfl := eq_of_query? h'
    exact h

end ExplicitAutomaton

/-! ## Automata in lockstep -/

namespace Lockstep

variable {L : Type}

theorem numberAll_frame (p : Lockstep L) (tss : List (List Transition)) :
    (p.numberAll tss).1.components = p.components ∧ (p.numberAll tss).1.answers = p.answers := by
  induction tss generalizing p with
  | nil => exact ⟨rfl, rfl⟩
  | cons ts tss ih => exact ih (p.number ts).1

/-- A query is answered from the table, or the answer is entered there. -/
theorem query?_cases {p p' : Lockstep L} {v : Valuation} {q : Nat} {ts : List Transition}
    (h : p.query? v q = some (p', ts)) :
    p.answers.lookup (v, q) = some ts ∧ p' = p ∨
      p.answers.lookup (v, q) = none ∧ p'.components = p.components ∧
        p'.answers = ((v, q), ts) :: p.answers := by
  rw [query?] at h
  cases hlookup : p.answers.lookup (v, q) with
  | some ts' =>
    rw [hlookup] at h
    cases h
    exact Or.inl ⟨rfl, rfl⟩
  | none =>
    rw [hlookup] at h
    obtain ⟨tss, -, h⟩ := Option.bind_eq_some_iff.mp h
    obtain ⟨hcomponents, hanswers⟩ := p.numberAll_frame tss
    cases h
    exact Or.inr ⟨rfl, hcomponents, by rw [← hanswers]⟩

theorem query?_of_lookup {p : Lockstep L} {v : Valuation} {q : Nat} {ts : List Transition}
    (h : p.answers.lookup (v, q) = some ts) : p.query? v q = some (p, ts) := by
  rw [query?, h]

theorem components_eq_of_query? {p p' : Lockstep L} {v : Valuation} {q : Nat} {ts : List Transition}
    (h : p.query? v q = some (p', ts)) : p'.components = p.components := by
  rcases query?_cases h with ⟨-, rfl⟩ | ⟨-, hcomponents, -⟩
  · rfl
  · exact hcomponents

theorem lookup_of_query? {p : Lockstep L} {v : Valuation} {q : Nat} {ts : List Transition}
    (h : p.query? v q = some (p, ts)) : p.answers.lookup (v, q) = some ts := by
  rcases query?_cases h with ⟨hlookup, -⟩ | ⟨-, -, hanswers⟩
  · exact hlookup
  · have hlen := congrArg List.length hanswers
    rw [List.length_cons] at hlen
    omega

instance : LawfulAutomaton (Lockstep L) where
  expressions_eq h := by simp only [Automaton.expressions, components_eq_of_query? h]
  initial_eq _ := rfl
  isDeterministic_eq h := by simp only [Automaton.isDeterministic, components_eq_of_query? h]
  query?_again h := by
    rcases query?_cases h with ⟨-, rfl⟩ | ⟨-, -, hanswers⟩
    · exact h
    · apply query?_of_lookup
      rw [hanswers, List.lookup_cons_self]
  query?_other {p p'} {v v'} {q q'} {ts ts'} h h' := by
    rcases query?_cases h' with ⟨-, rfl⟩ | ⟨hnew, -, hanswers⟩
    · exact h
    · have hold := lookup_of_query? h
      have hne : (v, q) ≠ (v', q') := by
        intro heq
        rw [heq, hnew] at hold
        cases hold
      apply query?_of_lookup
      rw [hanswers, List.lookup_cons, beq_false_of_ne hne]
      exact hold

end Lockstep

end OmegaGames
